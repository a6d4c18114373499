import ReadingComment.Ovlfs.StorageFile

/-!
# The format of a storage file (`fs/ovl_stg.c`)

What a storage file says is given by what is taken from its front. `rawFile` is the file as a whole,
and `RawFile.build` are the inodes that it describes, as the readers put them to the storage one
after the other.
-/

namespace Ovlfs.Stg1

open Lib (Bytes)

/-! ## Taking from the front -/

def takeBytes (n : ℕ) (c : Bytes) : Option (Bytes × Bytes) :=
  if n ≤ c.length then some (c.take n, c.drop n) else none

def word (c : Bytes) : Option (Word × Bytes) :=
  (takeBytes 4 c).map fun r => (ofBytes r.1, r.2)

def many {α : Type} (p : Bytes → Option (α × Bytes)) : ℕ → Bytes → Option (List α × Bytes)
  | 0, c => some ([], c)
  | n + 1, c => do
    let (a, c) ← p c
    let (as, c) ← many p n c
    return (a :: as, c)

/-! ## Inodes -/

/-- An entry of a directory. -/
structure RawEntry where
  name : Bytes
  ino : Word
  flags : Word

def rawEntry (c : Bytes) : Option (RawEntry × Bytes) := do
  let (len, c) ← word c
  let (name, c) ← takeBytes len.toInt.toNat c
  let (ino, c) ← word c
  let (flags, c) ← word c
  return (⟨name, ino, flags⟩, c)

/-- What belongs to the type of an inode. -/
inductive RawDetail where
  | none
  | value (w : Word)
  | entries (es : List RawEntry)

/-- What `stg1_read_inode_spec` reads. -/
structure RawSpec where
  parent : Word
  base : Option (Word × Word)
  stg : Option (Word × Word)
  flags : Word
  len : Word
  name : Bytes

/-- An inode. The head has the size of what is stored, flags, the owner and the group, the mode, the
size, three times, the links, and four further numbers. -/
structure RawInode where
  head : List Word
  spec : RawSpec
  detail : RawDetail

def headMode (head : List Word) : BitVec 16 := (head.getD 4 0).setWidth 16

def rawMapping (stgFlags : Word) (side : Side) (c : Bytes) :
    Option (Option (Word × Word) × Bytes) :=
  if stgFlags &&& mappingFlag side ≠ 0 then do
    let (dev, c) ← word c
    let (ino, c) ← word c
    return (some (dev, ino), c)
  else some (none, c)

def rawSpec (stgFlags : Word) (c : Bytes) : Option (RawSpec × Bytes) := do
  let (parent, c) ← word c
  let (base, c) ← rawMapping stgFlags .base c
  let (stg, c) ← rawMapping stgFlags .stg c
  let (flags, c) ← word c
  let (len, c) ← word c
  let (name, c) ← takeBytes len.toInt.toNat c
  return (⟨parent, base, stg, flags, len, name⟩, c)

def rawDetail (mode : BitVec 16) (c : Bytes) : Option (RawDetail × Bytes) :=
  if isDevice mode then do
    let (value, c) ← word c
    return (.value value, c)
  else if isDir mode then do
    let (n, c) ← word c
    let (es, c) ← many rawEntry n.toInt.toNat c
    return (.entries es, c)
  else some (.none, c)

def rawInode (stgFlags : Word) (c : Bytes) : Option (RawInode × Bytes) := do
  let (head, c) ← many word 14 c
  let (spec, c) ← rawSpec stgFlags c
  let (detail, c) ← rawDetail (headMode head) c
  return (⟨head, spec, detail⟩, c)

/-! ## The file -/

def rawMap (c : Bytes) : Option (InoMapping × Bytes) := do
  let (dev, c) ← word c
  let (ino, c) ← word c
  let (ovlIno, c) ← word c
  return (⟨dev, ino, ovlIno⟩, c)

def rawTable (c : Bytes) : Option (List InoMapping × Bytes) := do
  let (n, c) ← word c
  many rawMap n.toInt.toNat c

/-- What stands behind the magic number, for the storage flags of the file. -/
def rawMagic (c : Bytes) : Option (Word × Bytes) := do
  let (buf, c) ← takeBytes 4 c
  if buf = magicWordV4 then word c
  else if buf = magicWordV3 then some (mappingFlag .base ||| mappingFlag .stg, c)
  else none

/-- A storage file. -/
structure RawFile where
  inodes : List RawInode
  base : List InoMapping
  stg : List InoMapping

def rawContents (stgFlags totIno : Word) (c : Bytes) : Option RawFile := do
  let (inodes, c) ← many (rawInode stgFlags) totIno.toInt.toNat c
  let (base, c) ← rawTable c
  let (stg, _) ← rawTable c
  return ⟨inodes, base, stg⟩

def rawFile (c : Bytes) : Option RawFile := do
  let (magic, c) ← word c
  if magic = sMagic then do
    let (stgFlags, c) ← rawMagic c
    let (totIno, c) ← word c
    rawContents stgFlags totIno c
  else none

/-! ## The inodes of a file -/

def InodeSpecial.withRaw (s : InodeSpecial) (storeMap : Side → Bool) (side : Side) :
    Option (Word × Word) → InodeSpecial
  | some (dev, ino) => if storeMap side then s.withMapping side dev ino else s
  | none => s

def RawSpec.special (r : RawSpec) (storeMap : Side → Bool) (s : InodeSpecial) : InodeSpecial :=
  { (({ s with parentIno := r.parent }).withRaw storeMap .base r.base).withRaw storeMap .stg r.stg with
    flags := r.flags, len := r.len, name := r.name }

def RawInode.inode (r : RawInode) (storeMap : Side → Bool) (ino : ℕ) : StgInode :=
  { newInode ino with
    uid := r.head.getD 2 0
    gid := r.head.getD 3 0
    mode := headMode r.head
    size := r.head.getD 5 0
    atime := r.head.getD 6 0
    mtime := r.head.getD 7 0
    ctime := r.head.getD 8 0
    nlink := r.head.getD 9 0
    blksize := r.head.getD 10 0
    blocks := r.head.getD 11 0
    version := r.head.getD 12 0
    nrpages := r.head.getD 13 0
    s := r.spec.special storeMap (newInode ino).s
    attValid := headMode r.head ≠ 0 }

def RawEntry.put (ino : ℕ) (l : List StgInode) (e : RawEntry) : Option (List StgInode) :=
  if e.name = [] then none
  else match checkDirent ino e.name e.ino e.flags l with
    | .error _ => none
    | .ok (flags, l) => some (l.modify (ino - 1) (·.withDirent e.name e.ino flags))

def RawDetail.put (ino : ℕ) (l : List StgInode) : RawDetail → Option (List StgInode)
  | .none => some l
  | .value w => some (l.modify (ino - 1) fun i => { i with intValue := w })
  | .entries es => es.foldlM (RawEntry.put ino) l

def RawInode.put (storeMap : Side → Bool) (l : List StgInode) (r : RawInode) :
    Option (List StgInode) :=
  r.detail.put (l.length + 1) (l ++ [r.inode storeMap (l.length + 1)])

def RawFile.build (storeMap : Side → Bool) (f : RawFile) : Option (List StgInode) :=
  f.inodes.foldlM (RawInode.put storeMap) []

/-! ## What a file takes to be stored -/

/-- There is memory for all of a list, whose first one is the `k`-th. -/
def FitsFrom {α : Type} (fits : ℕ → α → Prop) : ℕ → List α → Prop
  | _, [] => True
  | k, a :: as => fits k a ∧ FitsFrom fits (k + 1) as

def Memory.fitsEntry (M : Memory) (ino k : ℕ) (_ : RawEntry) : Prop :=
  M.entryName ino k ∧ M.direntList ino ∧ M.dirent ino k

def Memory.fitsDetail (M : Memory) (ino : ℕ) : RawDetail → Prop
  | .entries es => FitsFrom (M.fitsEntry ino) 0 es
  | _ => True

/-- For the inode after `k` others. -/
def Memory.fitsInode (M : Memory) (k : ℕ) (r : RawInode) : Prop :=
  M.inodeList ∧ M.inode (k + 1) ∧ (0 < r.spec.len.toInt → M.inodeName (k + 1)) ∧
    M.fitsDetail (k + 1) r.detail

def Memory.fitsMap (M : Memory) (side : Side) (k : ℕ) (_ : InoMapping) : Prop := M.map side k

/-- `ovlfs_read_mappings` gets from `c` to `c'`, with the list `t`: a table is read if mappings are
stored, and skipped otherwise, be it there or not. -/
def TablePassed (E : Env) (side : Side) (c c' : Bytes) (t : Option (List InoMapping)) : Prop :=
  ∃ n c₀, word c = some (n, c₀) ∧
    if 0 < n.toInt then
      if ¬ E.storeMap side then c' = c₀.drop (12 * n).toNat ∧ t = none
      else ∃ maps, many rawMap n.toNat c₀ = some (maps, c') ∧ E.memory.mapList side ∧
        FitsFrom (E.memory.fitsMap side) 0 maps ∧ t = some maps
    else c' = c₀ ∧ t = none

/-- The file goes on with inodes for which there is memory, which can be put to the list `l`, and
with two tables that can be passed. -/
structure Readable (E : Env) (stgFlags totIno : Word) (c : Bytes) (rs : List RawInode)
    (l : List StgInode) : Prop where
  fits : FitsFrom E.memory.fitsInode 0 rs
  put : rs.foldlM (RawInode.put E.storeMap) [] = some l
  read : ∃ c₁ c₂ c₃ t t', many (rawInode stgFlags) totIno.toInt.toNat c = some (rs, c₁) ∧
    TablePassed E .base c₁ c₂ t ∧ TablePassed E .stg c₂ c₃ t'

end Ovlfs.Stg1
