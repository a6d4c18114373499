import ReadingComment.Ovlfs.Storage

/-!
# The entries of a directory (`fs/ovl_stg.c`)

The storage keeps the entries of a directory on a list that is sorted by name and has an index by
position. An entry that is unlinked stays on the list and is marked, so that the file of the base
filesystem behind it does not show again; the inode of the directory counts the marked entries.

A name has no `NUL`. Entries are put to new addresses, and a list has its nodes in a memory of its
own. No wait for the semaphore of a list is interrupted. Whether there is memory is part of a call.
`set_ino_flags`, which marks the inode of a new entry, is left out.
-/

namespace Ovlfs

/-- A name: its bytes, none of which is `NUL`. -/
@[ext] structure Name : Type where
  bytes : List UInt8
  noNul : 0 ∉ bytes
  deriving DecidableEq

instance : Inhabited Name := ⟨⟨[], List.not_mem_nil⟩⟩

/-- An `ovlfs_dir_info_t`: its address and what does not change, the name and the position. -/
structure Dirent where
  addr : ℕ
  name : Name
  pos : BitVec 32
  deriving DecidableEq, Inhabited

/-- The `flags` of an entry: `OVLFS_DIRENT_UNLINKED` and `OVLFS_DIRENT_RELINKED`. -/
structure Flags where
  unlinked : Bool
  relinked : Bool
  deriving DecidableEq, Repr

/-- `OVLFS_DIRENT_NORMAL`. -/
def Flags.normal : Flags := ⟨false, false⟩

/-- `strncmp(cs, ct, count)` of arrays that have so many bytes. -/
def strncmp : ℕ → List UInt8 → List UInt8 → ℤ
  | count + 1, c :: cs, d :: ct =>
    if c ≠ d then c.toNat - d.toNat
    else if c = 0 then 0
    else strncmp count cs ct
  | _, _, _ => 0

/-- `comp_dirent(ent1, ent2)` of entries that are there. -/
def compDirent : CompFunc Dirent := fun ent1 ent2 =>
  if ent1.name.bytes.length = ent2.name.bytes.length then
    strncmp ent1.name.bytes.length ent1.name.bytes ent2.name.bytes
  else ent1.name.bytes.length - ent2.name.bytes.length

/-- `comp_dirent_pos(ent1, ent2)` of entries that are there: the difference of two unsigned numbers,
returned as an `int`. -/
def compDirentPos : CompFunc Dirent := fun ent1 ent2 => (ent1.pos - ent2.pos).toInt

/-- The fields of the `ovlfs_inode_t` of a directory that are used here, and of the entries those
that change. -/
structure Directory where
  numRmEnt : ℤ
  dirEntries : Option (Mem Dirent)
  lastDirPos : BitVec 32
  posIndex : ℕ
  ino : ℕ → ℕ
  flags : ℕ → Flags
  nextDirent : ℕ

/-- The errors that the operations return. -/
inductive DirErrno where
  | enoent
  | enomem
  | eexist
  deriving DecidableEq, Repr

/-- What the environment decides in an operation. -/
structure DirGrant where
  /-- there is memory for the list -/
  list : Bool
  /-- the creation of the index by position -/
  index : Grant Dirent
  /-- the searches for the name, and for the new name of `ovlfs_stg1_rename` -/
  find : Grant Dirent
  findNew : Grant Dirent
  /-- the search of `ovlfs_ino_add_dirent` -/
  check : Grant Dirent
  remove : Grant Dirent
  /-- there is memory for the entry -/
  dirent : Bool
  /-- there is memory for the name -/
  name : Bool
  insert : Grant Dirent
  /-- the reads of the index by position -/
  read : ℤ → Grant Dirent

namespace Directory

/-- The inode that `ovlfs_add_inode` has cleared. -/
def init : Directory where
  numRmEnt := 0
  dirEntries := none
  lastDirPos := 0
  posIndex := 0
  ino _ := 0
  flags _ := .normal
  nextDirent := 2

def key (name : Name) : Dirent := ⟨1, name, 0⟩

/-- `create_dirent_list(&(ino->pos_index))`. -/
def createDirentList (g : DirGrant) : Except Fault (Option (Mem Dirent × ℕ)) :=
  if g.list then do
    match ← addIndex ⟨.unused, createList (some compDirent) (some compDirent)⟩ g.index
      compDirentPos false with
    | (m, .ok posIndex) => return some (m, posIndex)
    | (_, .error _) => return none
  else .ok none

def withEntries (d : Directory) (g : DirGrant) : Except Fault Directory :=
  match d.dirEntries with
  | some _ => .ok d
  | none => do
    match ← createDirentList g with
    | some (m, posIndex) => return { d with dirEntries := some m, posIndex := posIndex }
    | none => return d

/-- `ovlfs_ino_find_dirent(ino, name, len)`. -/
def inoFindDirent (d : Directory) (g : Grant Dirent) (name : Name) :
    Except Fault (Directory × Option Dirent) :=
  match d.dirEntries with
  | none => .ok (d, none)
  | some m => do
    let (m, result) ← searchForElement m g (key name)
    return ({ d with dirEntries := some m }, result)

/-- `ovlfs_remove_dirent(ino, name, len)`. -/
def removeDirent (d : Directory) (g : Grant Dirent) (name : Name) :
    Except Fault (Directory × Except DirErrno Unit) :=
  match d.dirEntries with
  | none => .ok (d, .ok ())
  | some m => do
    let (m, ret) ← removeElement m g (key name)
    let d := { d with dirEntries := some m }
    match ret with
    | .data ret =>
      return ({ d with numRmEnt := if (d.flags ret.addr).unlinked then d.numRmEnt - 1
        else d.numRmEnt }, .ok ())
    | _ => return (d, .error .enoent)

def setFlags (d : Directory) (addr : ℕ) (flags : Flags) : Directory :=
  { d with flags := Function.update d.flags addr flags }

/-- `flags |= OVLFS_DIRENT_UNLINKED`, and the entry is counted. -/
def markUnlinked (d : Directory) (addr : ℕ) : Directory :=
  { d.setFlags addr { d.flags addr with unlinked := true } with numRmEnt := d.numRmEnt + 1 }

/-- `ovlfs_unlink_dirent(ino, name, len)`. -/
def unlinkDirent (d : Directory) (g : Grant Dirent) (name : Name) :
    Except Fault (Directory × Except DirErrno Unit) :=
  match d.dirEntries with
  | none => .ok (d, .ok ())
  | some m => do
    let (m, dirent) ← searchForElement m g (key name)
    let d := { d with dirEntries := some m }
    match dirent with
    | none => return (d, .error .enoent)
    | some dirent =>
      if (d.flags dirent.addr).unlinked then return (d, .error .enoent)
      else return (d.markUnlinked dirent.addr, .ok ())

/-- The part of `ovlfs_ino_add_dirent` after the check: a new entry is made and put to the list. -/
def newDirent (d : Directory) (g : DirGrant) (name : Name) (entIno : ℕ) (flags : Flags) :
    Except Fault (Directory × Except DirErrno Unit) :=
  match d.dirEntries with
  | none => .ok (d, .error .enomem)
  | some m =>
    if g.dirent ∧ g.name then do
      let dirent : Dirent := ⟨d.nextDirent, name, d.lastDirPos⟩
      let d := { d with
        ino := Function.update d.ino dirent.addr entIno
        flags := Function.update d.flags dirent.addr flags
        lastDirPos := d.lastDirPos + 1
        nextDirent := d.nextDirent + 1 }
      match ← insertIntoListSorted m g.insert dirent with
      | (m, none) => return ({ d with dirEntries := some m }, .error .enomem)
      | (m, some _) => return ({ d with
          dirEntries := some m
          numRmEnt := if flags.unlinked then d.numRmEnt + 1 else d.numRmEnt }, .ok ())
    else .ok (d, .error .enomem)

/-- `ovlfs_ino_add_dirent(ino, name, len, ent_ino, flags)`. -/
def inoAddDirent (d : Directory) (g : DirGrant) (name : Name) (entIno : ℕ) (flags : Flags) :
    Except Fault (Directory × Except DirErrno Unit) := do
  let d ← d.withEntries g
  let (d, dirent) ← d.inoFindDirent g.check name
  match dirent with
  | none => d.newDirent g name entIno flags
  | some dirent =>
    if (d.flags dirent.addr).unlinked then
      -- the marked entry is removed before there is memory for the new one
      match ← d.removeDirent g.remove name with
      | (d, .error e) => return (d, .error e)
      | (d, .ok ()) => d.newDirent g name entIno { flags with relinked := true }
    else return (d, .error .eexist)

/-! ## Storage operations -/

/-- `ovlfs_stg1_num_dirent(inode, inc_rm)`. -/
def numDirent (d : Directory) (incRm : Bool) : ℤ :=
  match d.dirEntries with
  | none => 0
  | some m => if incRm then m.list.numberOfElements else m.list.numberOfElements - d.numRmEnt

/-- `ovlfs_stg1_lookup(inode, name, len, result, r_flags)`. -/
def lookup (d : Directory) (g : DirGrant) (name : Name) :
    Except Fault (Directory × Except DirErrno (ℕ × Flags)) := do
  let (d, dInfo) ← d.inoFindDirent g.find name
  match dInfo with
  | none => return (d, .error .enoent)
  | some dInfo => return (d, .ok (d.ino dInfo.addr, d.flags dInfo.addr))

/-- `ovlfs_stg1_add_dirent(inode, name, len, inum)`. -/
def addDirent (d : Directory) (g : DirGrant) (name : Name) (inum : ℕ) :
    Except Fault (Directory × Except DirErrno Unit) :=
  d.inoAddDirent g name inum .normal

/-- The target of a rename is there: it is linked again if need be and gets the inode of the other
entry. -/
def relink (d : Directory) (dInfo nInfo : ℕ) : Directory :=
  { d with
    flags :=
      if (d.flags nInfo).unlinked then Function.update d.flags nInfo ⟨false, true⟩ else d.flags
    numRmEnt := if (d.flags nInfo).unlinked then d.numRmEnt - 1 else d.numRmEnt
    ino := Function.update d.ino nInfo (d.ino dInfo) }

def reinstate (d : Directory) (addr : ℕ) : Directory :=
  { d.setFlags addr { d.flags addr with unlinked := false } with numRmEnt := d.numRmEnt - 1 }

/-- `ovlfs_stg1_rename(inode, oname, olen, nname, nlen)`. -/
def rename (d : Directory) (g : DirGrant) (oname nname : Name) :
    Except Fault (Directory × Except DirErrno Unit) := do
  let (d, dInfo) ← d.inoFindDirent g.find oname
  match dInfo with
  | none => return (d, .error .enoent)
  | some dInfo =>
    if (d.flags dInfo.addr).unlinked then return (d, .error .enoent)
    else do
      let (d, nInfo) ← d.inoFindDirent g.findNew nname
      match nInfo with
      | some nInfo =>
        if nInfo.addr = dInfo.addr then return (d, .ok ())
        else return ((d.markUnlinked dInfo.addr).relink dInfo.addr nInfo.addr, .ok ())
      | none =>
        match ← (d.markUnlinked dInfo.addr).inoAddDirent g nname (d.ino dInfo.addr) .normal with
        | (d, .error e) => return (d.reinstate dInfo.addr, .error e)
        | (d, .ok ()) => return (d, .ok ())

/-- `ovlfs_stg1_unlink(inode, name, len)`. -/
def unlink (d : Directory) (g : DirGrant) (name : Name) :
    Except Fault (Directory × Except DirErrno Unit) := d.unlinkDirent g.find name

/-- `ovlfs_stg1_delete_dirent(inode, name, len)`. -/
def deleteDirent (d : Directory) (g : DirGrant) (name : Name) :
    Except Fault (Directory × Except DirErrno Unit) := d.removeDirent g.remove name

/-- The loop of `ovlfs_stg1_find_next` between two places of the index by position. -/
def findBest (g : ℤ → Grant Dirent) (posIndex : ℕ) (pos : ℤ) (m : Mem Dirent) (low high : ℤ)
    (best : Option Dirent) : Except Fault (Mem Dirent × Option Dirent) :=
  if low ≤ high then do
    let cur := (low + high) / 2
    let (m, dent) ← readIndex m (g cur) posIndex cur
    match dent with
    | .error _ => findBest g posIndex pos m low (cur - 1) best
    | .ok dent =>
      if pos ≤ dent.pos.toNat then findBest g posIndex pos m low (cur - 1) (some dent)
      else findBest g posIndex pos m (cur + 1) high best
  else .ok (m, best)
termination_by (high + 1 - low).toNat

/-- `ovlfs_stg1_find_next(ino, pos, result)` of an inode that has a list; the last argument is what
`result` points to. -/
def findNext (m : Mem Dirent) (g : DirGrant) (posIndex : ℕ) (pos : ℤ) (result : Option Dirent) :
    Except Fault (Mem Dirent × Except Errno (Option Dirent)) := do
  let (m, loc) ← searchIndex m g.find posIndex ⟨1, default, BitVec.ofInt 32 pos⟩
  match loc with
  | .ok loc =>
    match ← readIndex m (g.read loc) posIndex loc with
    | (m, .ok dent) => return (m, .ok (some dent))
    | (m, .error .enoent) => return (m, .ok none)
    | (m, .error _) => return (m, .ok result)
  | .error .enoent => do
    let (m, best) ← findBest g.read posIndex pos m 1 m.list.numberOfElements none
    return (m, .ok best)
  | .error e => return (m, .error e)

/-- `ovlfs_stg1_get_dirent(inode, pos, result)`: the next position, and the entry. -/
def getDirent (d : Directory) (g : DirGrant) (pos : ℤ) (result : Option Dirent) :
    Except Fault (Directory × ℤ × Except Errno (Option Dirent)) :=
  match d.dirEntries with
  | none => .ok (d, pos, .ok none)
  | some m => do
    let (m, ret) ← findNext m g d.posIndex pos result
    let d := { d with dirEntries := some m }
    match ret with
    | .ok (some dent) => return (d, (dent.pos + 1).toNat, ret)
    | _ => return (d, pos, ret)

end Directory

end Ovlfs
