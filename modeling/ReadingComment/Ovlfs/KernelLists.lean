import Mathlib.Algebra.Group.Nat.Defs
import ReadingComment.Lib.Ordered
import ReadingComment.Lib.Run

/-!
# Abstract lists of the kernel (`lists/kernel_lists.c`)

A list keeps its elements, pointers of the user, in nodes; it counts them, knows the first and the
last node, and has two kinds of arrays of elements: the primary index (`element_list`) and any
number of alternate indexes, each with a comparison function of its own.

Pointers to nodes are addresses with `none` for `NULL`; the default of the type `ε` of elements
stands for the null pointer. Memory is which addresses hold nodes, and at which of them a block
begins. What the environment decides is part of a call (`Grant`): where `kmalloc` puts nodes, which
allocations fail, and what a new array or a freed node holds. The code is read for 32-bit pointers.

The semaphore of an auto-locking list is free between calls, so it matters only where `clear_list`
calls `foreach_node`, and both take it.
-/

namespace Ovlfs

open Ordered

/-! ## Memory -/

/-- What the code can do that it must not. -/
inductive Fault where
  /-- a node is read that is not there -/
  | badNode
  /-- `kfree` of an address where no block begins -/
  | badFree
  /-- a write outside of a new block of nodes -/
  | outOfBlock
  /-- a read or write outside of an array -/
  | outOfArray
  /-- a comparison function that was not given is called -/
  | nullCall
  /-- a process waits for a semaphore that it holds itself -/
  | deadlock
  /-- a chain that does not end -/
  | runaway
  deriving DecidableEq, Repr

/-- A `link_list_t`. -/
structure Node (ε : Type) where
  element : ε
  next : Option ℕ

/-- The nodes in memory, and for each address the number of nodes of the block that begins
there. -/
structure Heap (ε : Type) where
  node : ℕ → Option (Node ε)
  block : ℕ → ℕ

namespace Heap

variable {ε : Type}

/-- `*p`. -/
def deref (h : Heap ε) : Option ℕ → Except Fault (Node ε)
  | none => .error .badNode
  | some p =>
    match h.node p with
    | some n => .ok n
    | none => .error .badNode

def alloc (h : Heap ε) (p : ℕ) (n : Node ε) : Heap ε where
  node := Function.update h.node p (some n)
  block := Function.update h.block p 1

/-- The nodes of a new block, each linked to the one behind it and the last one to `next`. -/
def chainUp (p : ℕ) (next : Option ℕ) : List ε → List (ℕ × Node ε)
  | [] => []
  | [e] => [(p, ⟨e, next⟩)]
  | e :: es => (p, ⟨e, some (p + 1)⟩) :: chainUp (p + 1) next es

def allocMany (h : Heap ε) (p : ℕ) (next : Option ℕ) (es : List ε) : Heap ε where
  node := (chainUp p next es).foldl (fun m n => Function.update m n.1 (some n.2)) h.node
  block := Function.update h.block p es.length

/-- `p->next = next`. -/
def setNext (h : Heap ε) (p : ℕ) (next : Option ℕ) : Except Fault (Heap ε) := do
  let n ← h.deref (some p)
  return { h with node := Function.update h.node p (some { n with next := next }) }

/-- `do_free(p)`: the whole block is gone. -/
def free (h : Heap ε) (p : ℕ) : Except Fault (Heap ε) :=
  if h.block p = 0 then .error .badFree
  else .ok { node := fun q => if p ≤ q ∧ q < p + h.block p then none else h.node q
             block := Function.update h.block p 0 }

end Heap

/-! ## Lists -/

abbrev CompFunc (ε : Type) : Type := ε → ε → ℤ

/-- A `klist_index_t`. -/
structure Index (ε : Type) where
  compFunc : CompFunc ε
  /-- `KLIST_INDEX__LAZY_UPD` -/
  lazyUpd : Bool
  /-- `KLIST_INDEX__UP_TO_DATE` and not `KLIST_INDEX__NEEDS_UPDATE` -/
  upToDate : Bool
  elements : Option (List ε)

/-- The state of the primary index. -/
inductive IndexMode where
  | notIndexed
  | flat
  | sorted
  deriving DecidableEq, Repr

/-- A `struct list_struct` of type `ABSTRACT`. -/
structure KList (ε : Type) where
  numberOfElements : ℕ
  indexMode : IndexMode
  firstElement : Option ℕ
  lastElement : Option ℕ
  elementList : Option (List ε)
  elementCompare : Option (CompFunc ε)
  searchFunc : Option (CompFunc ε)
  autoLock : Bool
  /-- an entry for each of the `index_arr_size` identifiers -/
  indexes : List (Option (Index ε))

/-- What the environment decides in a call. -/
structure Grant (ε : Type) where
  /-- the allocation of nodes succeeds -/
  node : Bool
  /-- where the nodes are put -/
  addr : ℕ
  /-- the allocation of the array of the alternate index with this identifier succeeds -/
  table : ℕ → Bool
  /-- the allocation of the larger primary index succeeds -/
  grow : Bool
  /-- the allocation of a primary index made from the chain succeeds -/
  make : Bool
  /-- the allocation of the array of indexes succeeds -/
  slot : Bool
  /-- the allocation of an index succeeds -/
  info : Bool
  /-- what an array holds where nothing was written -/
  junk : ε
  /-- what was written over the `next` of freed nodes before it is read -/
  reused : ℕ → Option (Option ℕ)
  /-- a signal ends the wait for a semaphore -/
  signal : Bool

variable {ε : Type} [DecidableEq ε] [Inhabited ε]

/-- `create_list(NULL, element_compare, search_function, NULL)`. -/
def createList (elementCompare searchFunction : Option (CompFunc ε)) : KList ε where
  numberOfElements := 0
  indexMode := .notIndexed
  firstElement := none
  lastElement := none
  elementList := none
  elementCompare := elementCompare
  searchFunc := searchFunction
  autoLock := true
  indexes := []

/-! ## Searching and sorting -/

def readArr {α : Type} : Option α → Except Fault α
  | some x => .ok x
  | none => .error .outOfArray

/-- `__find_insert_pos(insert_list, new_data, comp_cb, index_ptr)`. -/
def findInsertPos (cmp : CompFunc ε) (n : ℕ) (newData : ε) (a : List ε) : Except Fault ℕ := do
  let (cur, notFound) ← readArr (bisect (cmp newData) a (n + 1) 0 n)
  return if 0 < notFound then cur + 1 else cur

/-- `bsearch(value, base, num_el, sizeof(void *), compar, TRUE)`: the place in the array. -/
def bsearch (cmp : CompFunc ε) (n : ℕ) (value : ε) (base : Option (List ε)) :
    Except Fault (Option ℕ) :=
  match base with
  | none => .ok none
  | some a =>
    if n = 0 then .ok none
    else do
      let (cur, notFound) ← readArr (bisect (cmp value) a (n + 1) 0 n)
      return if notFound = 0 then some cur else none

/-- `ssort(base, num_el, sizeof(void *), compar, TRUE)`. -/
def ssortArr (cmp : CompFunc ε) (n : ℕ) (a : List ε) : Except Fault (List ε) :=
  if a.length < n then .error .outOfArray
  else .ok (ssort cmp (n - 1) (a.take n) ++ a.drop n)

/-- The loop of `__find_remove_pos` toward the start; it does not look at the first place. -/
def removePosBefore (cmp : CompFunc ε) (ele : ε) (a : List ε) : ℕ → Except Fault ℕ
  | 0 => .ok 0
  | cur + 1 => do
    let x ← readArr a[cur + 1]?
    if x = ele then return cur + 1
    else if cmp ele x ≠ 0 then return 0
    else removePosBefore cmp ele a cur

/-- The loop of `__find_remove_pos` toward the end. -/
def removePosAfter (cmp : CompFunc ε) (ele : ε) (a : List ε) (n : ℕ) : ℕ → ℕ → Except Fault ℕ
  | 0, _ => .ok 0
  | fuel + 1, cur =>
    if cur < n then do
      let x ← readArr a[cur]?
      if x = ele then return cur
      else if cmp ele x ≠ 0 then return 0
      else removePosAfter cmp ele a n fuel (cur + 1)
    else .ok 0

/-- `__find_remove_pos(r_list, ele, comp_cb, index_arr)`. -/
def findRemovePos (cmp : CompFunc ε) (n : ℕ) (ele : ε) (a : List ε) : Except Fault ℕ := do
  match ← bsearch cmp n ele (some a) with
  | none => return 0
  | some c =>
    let x ← readArr a[c]?
    if x = ele then return c
    else
      let before ← removePosBefore cmp ele a (c - 1)
      if before ≠ 0 then return before
      else removePosAfter cmp ele a n n (c + 1)

/-! ## Indexes -/

/-- `make_index(list_to_index)`, with memory for the array. -/
def makeIndex (h : Heap ε) : ℕ → Option ℕ → Except Fault (List ε)
  | 0, _ => .ok []
  | n + 1, p => do
    let node ← h.deref p
    let rest ← makeIndex h n node.next
    return node.element :: rest

/-- `alt_index_insert(i_list, id, ele)` for an index that exists. -/
def altIndexInsert (n : ℕ) (ele : ε) (i : Index ε) : Except Fault (Index ε) :=
  match i.upToDate, i.elements with
  | true, some a =>
    if i.lazyUpd then .ok { i with upToDate := false }
    else do
      let pos ← findInsertPos i.compFunc n ele a
      if pos < n then
        -- the entries from the place on are shifted
        if a.length < n + 1 then .error .outOfArray
        else return { i with elements := some (a.take pos ++ ele :: ((a.take n).drop pos ++
          a.drop (n + 1))) }
      else if a.length ≤ pos then .error .outOfArray
      else return { i with elements := some (a.set pos ele) }
  | _, _ => .ok i

/-- `alt_index_resize(i_list, id, change)` for an index that exists; the new number of entries is
given. -/
def altIndexResize (n new : ℕ) (granted : Bool) (i : Index ε) : Except Fault (Index ε) :=
  match i.upToDate, i.elements with
  | true, some a =>
    if i.lazyUpd then .ok { i with upToDate := false }
    else if new = 0 then .ok { i with elements := none }
    else if granted then
      if a.length < min n new then .error .outOfArray
      else .ok { i with elements := some (a.take (min n new) ++ List.replicate (new - n) default) }
    else .ok { i with upToDate := false, elements := none }
  | _, _ => .ok i

/-- `alt_index_delete(r_list, id, ele)` for an index that exists. -/
def altIndexDelete (n : ℕ) (ele : ε) (i : Index ε) : Except Fault (Index ε) :=
  match i.upToDate, i.elements with
  | true, some a =>
    if i.lazyUpd then .ok { i with upToDate := false }
    else do
      let pos ← findRemovePos i.compFunc n ele a
      if pos < 1 then return { i with upToDate := false }
      else if a.length < n then .error .outOfArray
      else return { i with elements := some ((a.take n).eraseIdx pos ++ default :: a.drop n) }
  | _, _ => .ok i

/-- `update_alt_index(list, index_id)` for an index that exists, and whether it is 0 that is
returned. -/
def updateAltIndex (h : Heap ε) (l : KList ε) (granted : Bool) (i : Index ε) :
    Except Fault (Index ε × Bool) :=
  if l.numberOfElements = 0 then .ok ({ i with elements := none }, true)
  else if granted then do
    let a ← makeIndex h l.numberOfElements l.firstElement
    let a ← ssortArr i.compFunc l.numberOfElements a
    return ({ i with elements := some a, upToDate := true }, true)
  else .ok ({ i with elements := none }, false)

/-- A loop over the identifiers of indexes, from `id` on. -/
def eachIndex (f : ℕ → Index ε → Except Fault (Index ε)) :
    ℕ → List (Option (Index ε)) → Except Fault (List (Option (Index ε)))
  | _, [] => .ok []
  | id, none :: l => do
    let rest ← eachIndex f (id + 1) l
    return none :: rest
  | id, some i :: l => do
    let i ← f id i
    let rest ← eachIndex f (id + 1) l
    return some i :: rest

/-- `is_indexed(l)`. -/
def KList.isIndexed (l : KList ε) : Bool := l.indexMode != .notIndexed

def KList.reindexed (l : KList ε) (a : Option (List ε)) (mode : IndexMode) : KList ε :=
  { l with elementList := a, indexMode := mode }

/-- `cleanup_index(list_to_clean)`. -/
def KList.cleanupIndex (l : KList ε) : KList ε :=
  l.reindexed (if l.isIndexed then none else l.elementList) .notIndexed

/-- The entries that `my_realloc` copies. -/
def KList.copied (l : KList ε) (g : Grant ε) (oldSize : ℕ) : Except Fault (List ε) :=
  match l.elementList with
  | none => .ok (List.replicate oldSize g.junk)
  | some a => if a.length < oldSize then .error .outOfArray else .ok (a.take oldSize)

/-- `grow_index(list_to_index, old_size)` and the entries that the caller then writes, or the end
of the index when there is no memory. -/
def KList.growIndex (l : KList ε) (g : Grant ε) (oldSize : ℕ) (write : List ε → List ε) :
    Except Fault (KList ε) :=
  if g.grow then do
    let a ← l.copied g oldSize
    return l.reindexed
      (some (write (a ++ List.replicate (l.numberOfElements - oldSize) g.junk))) .flat
  else .ok l.cleanupIndex

/-- `find_insert_pos(insert_list, new_data)`. -/
def KList.insertPos (l : KList ε) (newData : ε) : Except Fault ℕ :=
  match l.elementCompare with
  | none => .error .nullCall
  | some cmp => do
    let a ← readArr l.elementList
    findInsertPos cmp l.numberOfElements newData a

/-- `grow_index_ordered(list_to_index, new_data, pos, old_size)`. -/
def KList.growIndexOrdered (l : KList ε) (g : Grant ε) (newData : ε) (pos oldSize : ℕ) :
    Except Fault (KList ε) :=
  if g.grow then do
    let a ← l.copied g oldSize
    if oldSize < pos then .error .outOfArray
    else return l.reindexed (some (a.take pos ++ newData :: a.drop pos)) l.indexMode
  else .ok (l.reindexed none .notIndexed)

/-- `check_index(list_to_index)`; it has succeeded when the list is then indexed. -/
def KList.checkIndex (l : KList ε) (h : Heap ε) (g : Grant ε) : Except Fault (KList ε) :=
  if l.isIndexed then .ok l
  else if g.make then do
    let a ← makeIndex h l.numberOfElements l.firstElement
    return l.reindexed (some a) .flat
  else .ok (l.reindexed none l.indexMode)

/-- The sort of a list that is indexed and has a comparison function. -/
def KList.sortIndexed (l : KList ε) : Except Fault (KList ε) :=
  match l.isIndexed, l.elementCompare with
  | true, some cmp => do
    let a ← readArr l.elementList
    let a ← ssortArr cmp l.numberOfElements a
    return l.reindexed (some a) .sorted
  | _, _ => .ok l

/-- `__sort_list(list_to_sort)`. -/
def KList.sortList (l : KList ε) (h : Heap ε) (g : Grant ε) : Except Fault (KList ε) := do
  let l ← l.checkIndex h g
  l.sortIndexed

/-- The sort of a part of a list that is indexed and has a comparison function. The comparison of
the last place with the number of elements is one of unsigned numbers. -/
def KList.sortPart (l : KList ε) (firstEl : ℤ) (numEl : BitVec 32) : Except Fault (KList ε) :=
  match l.isIndexed, l.elementCompare with
  | true, some cmp =>
    if 0 < firstEl ∧ (firstEl + numEl.toNat - 1) % 2 ^ 32 ≤ l.numberOfElements then do
      let a ← readArr l.elementList
      let pos := firstEl.toNat - 1
      let part ← ssortArr cmp numEl.toNat (a.drop pos)
      return l.reindexed (some (a.take pos ++ part)) .sorted
    else .ok l
  | _, _ => .ok l

/-- `sort_sublist(list_to_sort, first_el, num_el)`. -/
def KList.sortSublist (l : KList ε) (h : Heap ε) (g : Grant ε) (firstEl : ℤ) (numEl : BitVec 32) :
    Except Fault (KList ε) := do
  let l ← l.checkIndex h g
  l.sortPart firstEl numEl

/-- The alternate indexes of a list with `n` elements take a new one. -/
def insertIndexes (n : ℕ) (g : Grant ε) (ele : ε) (is : List (Option (Index ε))) :
    Except Fault (List (Option (Index ε))) :=
  eachIndex (fun id i => do
    let i ← altIndexResize n (n + 1) (g.table id) i
    altIndexInsert n ele i) 1 is

/-- The alternate indexes of a list with `n` elements lose one. -/
def deleteIndexes (n : ℕ) (g : Grant ε) (ele : ε) (is : List (Option (Index ε))) :
    Except Fault (List (Option (Index ε))) :=
  eachIndex (fun id i => do
    let i ← altIndexDelete n ele i
    altIndexResize n (n - 1) (g.table id) i) 1 is

/-! ## Operations -/

/-- The memory and the list. -/
structure Mem (ε : Type) where
  heap : Heap ε
  list : KList ε

/-- The list is indexed, so the primary index takes a new last entry. -/
def KList.appendToIndex (l : KList ε) (g : Grant ε) (oldSize : ℕ) (ele : ε) :
    Except Fault (KList ε) :=
  if l.isIndexed then l.growIndex g oldSize fun a => a.set (l.numberOfElements - 1) ele
  else .ok l

def KList.counted (l : KList ε) : KList ε :=
  { l with numberOfElements := l.numberOfElements + 1 }

/-- `insert_into_list(insert_list, ptr1)`; the result is the element, `none` without memory. -/
def insertIntoList (m : Mem ε) (g : Grant ε) (ptr1 : ε) : Except Fault (Mem ε × Option ε) :=
  if g.node then do
    let heap := m.heap.alloc g.addr ⟨ptr1, m.list.firstElement⟩
    let is ← insertIndexes m.list.numberOfElements g ptr1 m.list.indexes
    let l := { m.list with firstElement := some g.addr, indexes := is }
    let l ← l.counted.appendToIndex g l.numberOfElements ptr1
    return (⟨heap, l⟩, some ptr1)
  else .ok (m, none)

/-- The elements of `insert_many` go into the alternate indexes one by one. -/
def KList.indexInsertMany (l : KList ε) : List ε → Except Fault (KList ε)
  | [] => .ok l
  | e :: es => do
    let is ← eachIndex (fun _ i => altIndexInsert l.numberOfElements e i) 1 l.indexes
    KList.indexInsertMany { l with indexes := is, numberOfElements := l.numberOfElements + 1 } es

/-- The primary index grows for the elements of `insert_many`; the new entries are written to its
front. -/
def KList.growMany (l : KList ε) (g : Grant ε) (oldSize : ℕ) (els : List ε) :
    Except Fault (KList ε) :=
  if l.isIndexed then l.growIndex g oldSize fun a => els ++ a.drop els.length
  else .ok l.cleanupIndex

/-- `insert_many(insert_list, data, el_size, num_el)`, with the pointers to the elements of the
array. -/
def insertMany (m : Mem ε) (g : Grant ε) (els : List ε) : Except Fault (Mem ε × Option ε) :=
  if g.node then
    -- `sizeof(link_list_t) * num_el` and `(abs_nodes - 1)->next`
    if els.length = 0 ∨ 2 ^ 29 ≤ els.length then .error .outOfBlock
    else do
      let oldSize := m.list.numberOfElements
      let is ← eachIndex (fun id i =>
        altIndexResize oldSize (oldSize + els.length) (g.table id) i) 1 m.list.indexes
      let l ← { m.list with indexes := is }.indexInsertMany els
      let l ← l.growMany g oldSize els
      return (⟨m.heap.allocMany g.addr l.firstElement els,
        { l with firstElement := some g.addr }⟩, els.head?)
  else .ok (m, none)

/-- The element is counted and the primary index is sorted, or the element put to its place in the
sorted index. -/
def KList.sortedInsert (l : KList ε) (heap : Heap ε) (g : Grant ε) (ptr1 : ε) :
    Except Fault (KList ε) :=
  if l.indexMode = .sorted then do
    let pos ← l.insertPos ptr1
    l.counted.growIndexOrdered g ptr1 pos l.numberOfElements
  else do
    let l' ← l.counted.appendToIndex g l.numberOfElements ptr1
    l'.sortList heap g

/-- `insert_into_list_sorted(insert_list, ptr1)`. -/
def insertIntoListSorted (m : Mem ε) (g : Grant ε) (ptr1 : ε) : Except Fault (Mem ε × Option ε) :=
  if g.node then do
    let heap := m.heap.alloc g.addr ⟨ptr1, m.list.firstElement⟩
    let is ← insertIndexes m.list.numberOfElements g ptr1 m.list.indexes
    let l := { m.list with firstElement := some g.addr, indexes := is }
    let l ← l.sortedInsert heap g ptr1
    return (⟨heap, l⟩, some ptr1)
  else .ok (m, none)

/-- `insert_at_end(insert_list, ptr1)`. The alternate indexes are left alone. -/
def insertAtEnd (m : Mem ε) (g : Grant ε) (ptr1 : ε) : Except Fault (Mem ε × Option ε) :=
  if g.node then do
    let heap ←
      match m.list.lastElement with
      | some q => m.heap.setNext q (some g.addr)
      | none => .ok m.heap
    let heap := heap.alloc g.addr ⟨ptr1, none⟩
    let l := { m.list with
      lastElement := some g.addr
      firstElement := if m.list.firstElement = none then some g.addr else m.list.firstElement }
    let l ← l.counted.appendToIndex g l.numberOfElements ptr1
    return (⟨heap, l⟩, some ptr1)
  else .ok (m, none)

/-- The loop of `foreach_node(list_to_traverse, do_free)`: the link of a node is read after the
node was freed. -/
def freeNodes (reused : ℕ → Option (Option ℕ)) : ℕ → Heap ε → Option ℕ → Except Fault (Heap ε)
  | _, h, none => .ok h
  | 0, _, some _ => .error .runaway
  | fuel + 1, h, some p => do
    let n ← h.deref (some p)
    let h ← h.free p
    freeNodes reused fuel h ((reused p).getD n.next)

/-- The memory after `clear_list` has called `foreach_node`, which takes the semaphore of an
auto-locking list that `clear_list` holds already: a signal makes it give up. -/
def freed (m : Mem ε) (g : Grant ε) : Except Fault (Heap ε) :=
  if m.list.autoLock then
    if g.signal then .ok m.heap else .error .deadlock
  else freeNodes g.reused m.list.numberOfElements m.heap m.list.firstElement

/-- `clear_list(c_list)`. The alternate indexes are left alone. -/
def clearList (m : Mem ε) (g : Grant ε) : Except Fault (Mem ε) := do
  let heap ← freed m g
  return ⟨heap, { m.list.cleanupIndex with
    numberOfElements := 0, firstElement := none, lastElement := none }⟩

/-- What the functions that remove an element return. -/
inductive Removed (ε : Type) where
  /-- `(void *) -1` -/
  | bad
  /-- `NULL` -/
  | absent
  | data (e : ε)

/-- The loop of `remove_element`: the node that is found, and the one before it. -/
def findNode (h : Heap ε) (search : ε → ℤ) :
    ℕ → Option ℕ → Option ℕ → Except Fault (Option (Option ℕ × ℕ × Node ε))
  | _, _, none => .ok none
  | 0, _, some _ => .error .runaway
  | fuel + 1, last, some p => do
    let n ← h.deref (some p)
    if search n.element ≠ 0 then findNode h search fuel (some p) n.next
    else return some (last, p, n)

/-- The loop of `remove_nth`, `nth - 1` times. -/
def findNth (h : Heap ε) : ℕ → Option ℕ → Option ℕ → Except Fault (Option (Option ℕ × ℕ × Node ε))
  | _, _, none => .ok none
  | 0, last, some p => do
    let n ← h.deref (some p)
    return some (last, p, n)
  | nth + 1, _, some p => do
    let n ← h.deref (some p)
    findNth h nth (some p) n.next

def unlink (m : Mem ε) (last : Option ℕ) (cur : ℕ) (n : Node ε) : Except Fault (Mem ε) := do
  let m ←
    match last with
    | none => .ok { m with list := { m.list with firstElement := n.next } }
    | some q => do
      let heap ← m.heap.setNext q n.next
      .ok { m with heap := heap }
  return { m with list := { m.list with
    lastElement := if m.list.lastElement = some cur then last else m.list.lastElement } }

/-- The search of `remove_element` for a value; an empty list does not call it. -/
def KList.search (l : KList ε) (searchVal : ε) : Except Fault (ε → ℤ) :=
  match l.firstElement, l.searchFunc with
  | _, some f => .ok (f searchVal)
  | none, none => .ok fun _ => 0
  | some _, none => .error .nullCall

/-- The end of `remove_element`, after its loop. -/
def dropFound (m : Mem ε) (g : Grant ε) :
    Option (Option ℕ × ℕ × Node ε) → Except Fault (Mem ε × Removed ε)
  | none => .ok (m, .absent)
  | some (last, cur, n) => do
    let m ← unlink m last cur n
    let heap ← m.heap.free cur
    let l := m.list.cleanupIndex
    let is ← deleteIndexes l.numberOfElements g n.element l.indexes
    return (⟨heap, { l with indexes := is, numberOfElements := l.numberOfElements - 1 }⟩,
      .data n.element)

/-- `remove_element(list, search_val)`. -/
def removeElement (m : Mem ε) (g : Grant ε) (searchVal : ε) : Except Fault (Mem ε × Removed ε) := do
  let search ← m.list.search searchVal
  let found ← findNode m.heap search m.list.numberOfElements none m.list.firstElement
  dropFound m g found

/-- The end of `remove_nth`, after its loop. -/
def dropNth (m : Mem ε) (g : Grant ε) :
    Option (Option ℕ × ℕ × Node ε) → Except Fault (Mem ε × Removed ε)
  | none => .ok (m, .absent)
  | some (last, cur, n) => do
    let m ← unlink m last cur n
    let is ← deleteIndexes m.list.numberOfElements g n.element m.list.indexes
    let heap ← m.heap.free cur
    let l := m.list.cleanupIndex
    return (⟨heap, { l with indexes := is, numberOfElements := l.numberOfElements - 1 }⟩,
      .data n.element)

/-- `remove_nth(list, nth)`. -/
def removeNth (m : Mem ε) (g : Grant ε) (nth : ℤ) : Except Fault (Mem ε × Removed ε) :=
  if nth < 1 then .ok (m, .bad)
  else do
    let found ← findNth m.heap (nth.toNat - 1) none m.list.firstElement
    dropNth m g found

/-- `set_list_autolock(l_list, do_locking)`. -/
def setListAutolock (l : KList ε) (doLocking : Bool) : KList ε := { l with autoLock := doLocking }

/-! ## Operations on alternate indexes -/

/-- The errors that they return. -/
inductive Errno where
  | einval
  | enomem
  | enoent
  deriving DecidableEq, Repr

def KList.index? (l : KList ε) (id : ℤ) : Option (Index ε) :=
  if id < 1 then none else (l.indexes[id.toNat - 1]?).join

def KList.setIndex (l : KList ε) (id : ℤ) (i : Option (Index ε)) : KList ε :=
  { l with indexes := l.indexes.set (id.toNat - 1) i }

/-- The identifier of an unused slot, or of a new one behind the array. -/
def freeSlot : ℕ → List (Option (Index ε)) → ℕ
  | id, [] => id
  | id, none :: _ => id
  | id, some _ :: l => freeSlot (id + 1) l

/-- `add_index(list, cb_func, flags, r_index_id)`; the result is the identifier. -/
def addIndex (m : Mem ε) (g : Grant ε) (cb : CompFunc ε) (lazyUpd : Bool) :
    Except Fault (Mem ε × Except Errno ℕ) :=
  let id := freeSlot 1 m.list.indexes
  let fits := id ≤ m.list.indexes.length
  if ¬ fits ∧ ¬ g.slot then .ok (m, .error .enomem)
  else
    let l := if fits then m.list else { m.list with indexes := m.list.indexes ++ [none] }
    if g.info then do
      let (i, _) ← updateAltIndex m.heap l (g.table id) ⟨cb, lazyUpd, false, none⟩
      return ({ m with list := l.setIndex id (some i) }, .ok id)
    else .ok ({ m with list := l }, .error .enomem)

/-- `drop_index(list, index_id)`. -/
def dropIndex (m : Mem ε) (id : ℤ) : Mem ε × Except Errno Unit :=
  match m.list.index? id with
  | none => (m, .error .einval)
  | some _ => ({ m with list := m.list.setIndex id none }, .ok ())

/-- The index is brought up to date when it is not; the result says whether there was memory. -/
def refresh (m : Mem ε) (g : Grant ε) (id : ℤ) (i : Index ε) :
    Except Fault (Mem ε × Index ε × Bool) :=
  if i.upToDate then .ok (m, i, true)
  else do
    let (i, ok) ← updateAltIndex m.heap m.list (g.table id.toNat) i
    return ({ m with list := m.list.setIndex id (some i) }, i, ok)

/-- `read_index(list, index_id, nth, r_ele)`. -/
def readIndex (m : Mem ε) (g : Grant ε) (id nth : ℤ) : Except Fault (Mem ε × Except Errno ε) :=
  if nth < 1 ∨ m.list.numberOfElements < nth then .ok (m, .error .einval)
  else
    match m.list.index? id with
    | none => .ok (m, .error .einval)
    | some i => do
      let (m, i, ok) ← refresh m g id i
      if ok then
        let a ← readArr i.elements
        let e ← readArr a[nth.toNat - 1]?
        return (m, .ok e)
      else return (m, .error .enomem)

/-- `search_index(list, index_id, data, r_pos)`; positions count from 1. -/
def searchIndex (m : Mem ε) (g : Grant ε) (id : ℤ) (data : ε) :
    Except Fault (Mem ε × Except Errno ℕ) :=
  match m.list.index? id with
  | none => .ok (m, .error .einval)
  | some i => do
    let (m, i, ok) ← refresh m g id i
    if ok then
      match ← bsearch i.compFunc m.list.numberOfElements data i.elements with
      | none => return (m, .error .enoent)
      | some pos => return (m, .ok (pos + 1))
    else return (m, .error .enomem)

/-- `change_index_sort(list, index_id, new_cb)`. -/
def changeIndexSort (m : Mem ε) (g : Grant ε) (id : ℤ) (newCb : CompFunc ε) :
    Except Fault (Mem ε × Except Errno Unit) :=
  match m.list.index? id with
  | none => .ok (m, .error .einval)
  | some i =>
    let i := { i with upToDate := false, compFunc := newCb }
    if i.lazyUpd then .ok ({ m with list := m.list.setIndex id (some i) }, .ok ())
    else do
      let (i, _) ← updateAltIndex m.heap m.list (g.table id.toNat) i
      return ({ m with list := m.list.setIndex id (some i) }, .ok ())

end Ovlfs
