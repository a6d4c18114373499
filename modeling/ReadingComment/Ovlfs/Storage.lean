import ReadingComment.Ovlfs.KernelLists

/-!
# The storage of ovlfs (`fs/ovl_stg.c`)

The storage keeps the inodes of the filesystem on one list, in the order in which they were added,
and numbers them by it; two further lists map the inodes of the base and of the storage filesystem
to them, sorted by device and inode number.

The super block is valid. A list has its nodes in a memory of its own; inodes and mappings are put
to new addresses, and `kdev_t` is an `unsigned short`. No wait for a semaphore is interrupted.
Whether there is memory is part of a call.
-/

namespace Ovlfs

section Lists

variable {ε : Type} [DecidableEq ε] [Inhabited ε]

def Heap.unused : Heap ε := ⟨fun _ => none, fun _ => 0⟩

/-- `nth_element(list_to_search, nth)`. -/
def nthElement (m : Mem ε) (g : Grant ε) (nth : ℤ) : Except Fault (Mem ε × Option ε) := do
  let l ← m.list.checkIndex m.heap g
  if l.isIndexed ∧ nth > 0 ∧ nth ≤ l.numberOfElements then
    let a ← readArr l.elementList
    let x ← readArr a[(nth - 1).toNat]?
    return ({ m with list := l }, some x)
  else return ({ m with list := l }, none)

/-- The loop of `l_search(list_to_search, value)`. -/
def lSearch (h : Heap ε) (search : ε → ℤ) : ℕ → Option ℕ → Except Fault (Option ε)
  | 0, _ => .ok none
  | n + 1, p => do
    let node ← h.deref p
    if search node.element = 0 then return some node.element
    else lSearch h search n node.next

/-- `search_for_element(list_to_search, value)`. -/
def searchForElement (m : Mem ε) (g : Grant ε) (value : ε) : Except Fault (Mem ε × Option ε) := do
  let l ← m.list.checkIndex m.heap g
  match l.searchFunc with
  | none =>
    if l.indexMode = .sorted ∨ l.numberOfElements = 0 then return ({ m with list := l }, none)
    else .error .nullCall
  | some cmp =>
    if l.indexMode = .sorted then
      match ← bsearch cmp l.numberOfElements value l.elementList with
      | none => return ({ m with list := l }, none)
      | some cur =>
        let a ← readArr l.elementList
        let x ← readArr a[cur]?
        return ({ m with list := l }, some x)
    else
      let x ← lSearch m.heap (cmp value) l.numberOfElements l.firstElement
      return ({ m with list := l }, x)

end Lists

/-! ## Inodes and mappings -/

/-- A `kdev_t`. -/
abbrev Dev : Type := BitVec 16

abbrev Inum : Type := BitVec 32

/-- The fields of an `ovlfs_inode_t` that are used here. -/
structure OvlInode where
  ino : ℕ
  name : Option (List Char)
  baseDev : Dev
  baseIno : Inum
  stgDev : Dev
  stgIno : Inum

/-- An `ovlfs_ino_map_t`: its address and its key, which does not change. The address of `NULL`
is 0. -/
structure InoMap where
  addr : ℕ
  dev : Dev
  ino : Inum
  deriving DecidableEq, Inhabited

/-- `comp_ino_map(map1, map2)`. -/
def compInoMap : CompFunc InoMap := fun map1 map2 =>
  if map1.addr = 0 then 1
  else if map2.addr = 0 then -1
  -- the difference of two unsigned numbers, returned as an `int`
  else if map1.dev = map2.dev then (map1.ino - map2.ino).toInt
  else map1.dev.toNat - map2.dev.toNat

/-- The filesystem whose inodes a list maps. -/
inductive Side where
  /-- `base_to_ovl` -/
  | base
  /-- `stg_to_ovl` -/
  | stg
  deriving DecidableEq, Repr

def Side.ofChar (which : Char) : Option Side :=
  if which = 'b' then some .base
  else if which = 'o' ∨ which = 's' then some .stg
  else none

/-- The storage of a super block, and the memory for its inodes and mappings. -/
structure Storage where
  inodes : Option (Mem ℕ)
  toOvl : Side → Option (Mem InoMap)
  inode : ℕ → OvlInode
  nextInode : ℕ
  ovlIno : ℕ → ℕ
  nextMap : ℕ

namespace Storage

def init : Storage where
  inodes := none
  toOvl _ := none
  inode _ := ⟨0, none, 0, 0, 0, 0⟩
  nextInode := 1
  ovlIno _ := 0
  nextMap := 2

/-- What the environment decides in `ovlfs_add_inode`. -/
structure AddGrant where
  /-- there is memory for the list -/
  list : Bool
  /-- there is memory for the inode -/
  inode : Bool
  /-- there is memory for the name -/
  name : Bool
  insert : Grant ℕ

/-- `create_inode_list()`. The comparison function `comp_ovl_ino` reads inodes; none of the
operations on this list calls it. -/
def createInodeList (compOvlIno : CompFunc ℕ) : Mem ℕ :=
  ⟨.unused, createList (some compOvlIno) (some compOvlIno)⟩

/-- `create_ino_map_list()`. -/
def createInoMapList : Mem InoMap := ⟨.unused, createList (some compInoMap) (some compInoMap)⟩

/-- The inode that `ovlfs_add_inode` fills in; `NODEV` is 0. -/
def newInode (ino : ℕ) (name : Option (List Char)) : OvlInode := ⟨ino, name, 0, 0, 0, 0⟩

/-- The part of `ovlfs_add_inode` after the creation of the list. -/
def addToList (s : Storage) (m : Mem ℕ) (g : AddGrant) (name : Option (List Char)) :
    Except Fault (Storage × Option ℕ) :=
  if g.inode then do
    let p := s.nextInode
    let ino := newInode (m.list.numberOfElements + 1)
      (name.filter fun text => text ≠ [] ∧ g.name = true)
    match ← insertAtEnd m g.insert p with
    | (m, some _) => return ({ s with
        inodes := some m
        inode := Function.update s.inode p ino
        nextInode := p + 1 }, some p)
    | (m, none) => return ({ s with inodes := some m }, none)
  else .ok ({ s with inodes := some m }, none)

/-- `ovlfs_add_inode(sup_blk, name, len)`. -/
def addInode (s : Storage) (compOvlIno : CompFunc ℕ) (g : AddGrant) (name : Option (List Char)) :
    Except Fault (Storage × Option ℕ) :=
  match s.inodes with
  | some m => s.addToList m g name
  | none => if g.list then s.addToList (createInodeList compOvlIno) g name else .ok (s, none)

/-- `ovlfs_get_ino(sup_blk, ino)`. An `unsigned long` has 32 bits here, as the `int` that
`nth_element` takes. -/
def getIno (s : Storage) (g : Grant ℕ) (ino : ℕ) : Except Fault (Storage × Option ℕ) :=
  if ino = 0 then .ok (s, none)
  else
    match s.inodes with
    | none => .ok (s, none)
    | some m => do
      let (m, result) ← nthElement m g ino
      return ({ s with inodes := some m }, result)

def key (dev : Dev) (ino : Inum) : InoMap := ⟨1, dev, ino⟩

def setMaps (s : Storage) (side : Side) (m : Mem InoMap) : Storage :=
  { s with toOvl := Function.update s.toOvl side (some m) }

/-- `check_mapping(map_list, dev, ino, ovl_ino)`. -/
def checkMapping (s : Storage) (side : Side) (g : Grant InoMap) (dev : Dev) (ino : Inum)
    (ovlIno : ℕ) : Except Fault (Storage × Bool) :=
  match s.toOvl side with
  | none => .ok (s, false)
  | some m => do
    let (m, mapping) ← searchForElement m g (key dev ino)
    let s := s.setMaps side m
    match mapping with
    | none => return (s, false)
    | some mapping =>
      return ({ s with ovlIno := Function.update s.ovlIno mapping.addr ovlIno }, true)

/-- What the environment decides in `ovlfs_stg1_map_inode`. -/
structure MapGrant where
  get : Grant ℕ
  find : Grant InoMap
  /-- there is memory for the mapping -/
  mapping : Bool
  /-- there is memory for the list -/
  list : Bool
  insert : Grant InoMap

/-- `ino->s.base_dev` and `base_ino`, or `stg_dev` and `stg_ino`. -/
def setReal (s : Storage) (side : Side) (p : ℕ) (dev : Dev) (inum : Inum) : Storage :=
  let ino := s.inode p
  { s with inode := Function.update s.inode p <|
      match side with
      | .base => { ino with baseDev := dev, baseIno := inum }
      | .stg => { ino with stgDev := dev, stgIno := inum } }

def putMapping (s : Storage) (side : Side) (m : Mem InoMap) (g : Grant InoMap) (mapping : InoMap) :
    Except Fault (Storage × Except Errno Unit) := do
  match ← insertIntoListSorted m g mapping with
  | (m, some _) => return (s.setMaps side m, .ok ())
  | (m, none) => return (s.setMaps side m, .error .enomem)

/-- A new mapping goes into the list of the filesystem, which is created if need be. -/
def insertMapping (s : Storage) (side : Side) (g : MapGrant) (dev : Dev) (inum : Inum)
    (ovlIno : ℕ) : Except Fault (Storage × Except Errno Unit) :=
  if g.mapping then
    let mapping : InoMap := ⟨s.nextMap, dev, inum⟩
    let s := { s with
      ovlIno := Function.update s.ovlIno mapping.addr ovlIno
      nextMap := s.nextMap + 1 }
    match s.toOvl side with
    | some m => s.putMapping side m g.insert mapping
    | none =>
      if g.list then s.putMapping side createInoMapList g.insert mapping
      else .ok (s, .error .enomem)
  else .ok (s, .error .enomem)

/-- `stg1_inode_set_other(sup_blk, ino, dev, inum, other_fs)`. -/
def inodeSetOther (s : Storage) (g : MapGrant) (p : ℕ) (dev : Dev) (inum : Inum) (otherFs : Char) :
    Except Fault (Storage × Except Errno Unit) :=
  match Side.ofChar otherFs with
  | none => .ok (s, .error .einval)
  | some side => do
    let s := s.setReal side p dev inum
    let (s, found) ← s.checkMapping side g.find dev inum (s.inode p).ino
    if found then return (s, .ok ())
    else s.insertMapping side g dev inum (s.inode p).ino

/-- `ovlfs_stg1_map_inode(sb, inum1, dev2, inum2, which)`. -/
def mapInode (s : Storage) (g : MapGrant) (inum1 : ℕ) (dev2 : Dev) (inum2 : Inum) (which : Char) :
    Except Fault (Storage × Except Errno Unit) := do
  let (s, ino) ← s.getIno g.get inum1
  match ino with
  | none => return (s, .error .enoent)
  | some p => s.inodeSetOther g p dev2 inum2 which

/-- `ovlfs_stg1_map_lookup(sb, dev, inum, result, which)`. -/
def mapLookup (s : Storage) (g : Grant InoMap) (dev : Dev) (inum : Inum) (which : Char) :
    Except Fault (Storage × Except Errno ℕ) :=
  match Side.ofChar which with
  | none => .ok (s, .error .enoent)
  | some side =>
    match s.toOvl side with
    | none => .ok (s, .error .enoent)
    | some m => do
      let (m, mapping) ← searchForElement m g (key dev inum)
      return (s.setMaps side m, match mapping with
        | some mapping => .ok (s.ovlIno mapping.addr)
        | none => .error .enoent)

/-! ## Runs -/

/-- A call of the storage. -/
inductive Call where
  | addInode (g : AddGrant) (name : Option (List Char))
  | getIno (g : Grant ℕ) (ino : ℕ)
  | mapInode (g : MapGrant) (inum1 : ℕ) (dev2 : Dev) (inum2 : Inum) (which : Char)
  | mapLookup (g : Grant InoMap) (dev : Dev) (inum : Inum) (which : Char)

def Fresh (s : Storage) : Call → Prop
  | .addInode g _ => ∀ m, s.inodes = some m → m.heap.node g.insert.addr = none
  | .mapInode g _ _ _ _ => ∀ side m, s.toOvl side = some m → m.heap.node g.insert.addr = none
  | _ => True

def call (compOvlIno : CompFunc ℕ) (s : Storage) : Call → Except Fault Storage
  | .addInode g name => do return (← s.addInode compOvlIno g name).1
  | .getIno g ino => do return (← s.getIno g ino).1
  | .mapInode g inum1 dev2 inum2 which => do return (← s.mapInode g inum1 dev2 inum2 which).1
  | .mapLookup g dev inum which => do return (← s.mapLookup g dev inum which).1

def system (compOvlIno : CompFunc ℕ) : Lib.System Storage Call Fault :=
  ⟨init, Fresh, call compOvlIno⟩

end Storage

end Ovlfs
