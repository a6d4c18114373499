import ReadingComment.Lib.Bytes
import ReadingComment.Ovlfs.Directory
import ReadingComment.Ovlfs.FileIo

/-!
# Mounting from a storage file (`fs/ovl_stg.c`)

`ovlfs_stg1_read_super` parses the options of a mount, opens the storage file if one is named, and
reads the inodes from it; without a file it makes the root inode.

The super block is valid, and the kernel has dentries. `file_read` gives as much as it is asked for,
up to the end of the file. An `int` and a `long` have four bytes; what is read is kept as a word,
but for the mode, which is tested. The counters of loops are unbounded, and lists are those of their
elements. Whether there is memory is up to the environment, and so is what an uninitialized variable
holds.
-/

namespace Ovlfs.Stg1

open Lib (Bytes)

/-- An `unsigned int`. -/
abbrev Word : Type := BitVec 32

/-! ## Inodes -/

/-- An `ovlfs_dir_info_t`. -/
structure DirInfo where
  name : Bytes
  ino : Word
  flags : Word
  pos : Word
  deriving DecidableEq

/-- An `ovlfs_inode_special_t`; `name` has the bytes that were read. -/
structure InodeSpecial where
  parentIno : Word
  baseDev : Word
  baseIno : Word
  stgDev : Word
  stgIno : Word
  flags : Word
  name : Bytes
  len : Word
  deriving DecidableEq

/-- An `ovlfs_inode_t`. -/
structure StgInode where
  ino : ℕ
  mode : BitVec 16
  size : Word
  uid : Word
  gid : Word
  atime : Word
  mtime : Word
  ctime : Word
  nlink : Word
  blksize : Word
  blocks : Word
  version : Word
  nrpages : Word
  intValue : Word
  s : InodeSpecial
  numRmEnt : ℤ
  dirEntries : Option (List DirInfo)
  lastDirPos : Word
  attValid : Bool
  deriving DecidableEq

/-- An `ovlfs_ino_map_t`. -/
structure InoMapping where
  dev : Word
  ino : Word
  ovlIno : Word
  deriving DecidableEq

/-- The inode that `ovlfs_add_inode` makes. -/
def newInode (ino : ℕ) : StgInode where
  ino := ino
  mode := 0
  size := 0
  uid := 0
  gid := 0
  atime := 0
  mtime := 0
  ctime := 0
  nlink := 0
  blksize := 0
  blocks := 0
  version := 0
  nrpages := 0
  intValue := 0
  s := ⟨0, 0, 0, 0, 0, 0, [], 0⟩
  numRmEnt := 0
  dirEntries := none
  lastDirPos := 0
  attValid := false

/-- `S_IFMT`. -/
def sIfmt : BitVec 16 := 0o170000

def isDir (mode : BitVec 16) : Bool := mode &&& sIfmt = 0o040000

/-- `S_ISBLK(mode) || S_ISCHR(mode)`. -/
def isDevice (mode : BitVec 16) : Bool := mode &&& sIfmt = 0o060000 || mode &&& sIfmt = 0o020000

/-- The bit `OVLFS_DIRENT_UNLINKED` of the flags of an entry. -/
def direntUnlinked : Word := 1

def direntRelinked : Word := 2

/-- `OVL_IFLAG__NO_BASE_REF`. -/
def noBaseRef : Word := 2

/-! ## The environment -/

def enoent : ℤ := 2
def ebadf : ℤ := 9
def enomem : ℤ := 12
def eexist : ℤ := 17
def einval : ℤ := 22
def enfile : ℤ := 23

/-- For what there is memory. -/
structure Memory where
  dupString : Bool
  inodeList : Bool
  /-- the inode with a number, and its node -/
  inode : ℕ → Bool
  inodeName : ℕ → Bool
  /-- the name that is read for the entry of an inode -/
  entryName : ℕ → ℕ → Bool
  direntList : ℕ → Bool
  /-- the entry of an inode, its name, and its node -/
  dirent : ℕ → ℕ → Bool
  mapList : Side → Bool
  /-- a mapping, and its node -/
  map : Side → ℕ → Bool

/-- A pointer that may be an error. -/
inductive ErrPtr where
  | valid
  | null
  /-- `ERR_PTR(-(code + 1))` -/
  | error (code : ℕ)

/-- What a mount meets. -/
structure Env where
  /-- the options, with what stands behind `=` -/
  options : List (String × Option String)
  memory : Memory
  /-- `OVLFS_STORE_BASE_MAP` and `OVLFS_STORE_STG_MAP` -/
  storeMap : Side → Bool
  /-- `get_inode` finds the storage file -/
  found : Bool
  /-- `file_open` creates it, and `get_inode` finds it then -/
  created : Bool
  /-- `ovlfs_inode2dentry` -/
  dentry : ErrPtr
  /-- `dentry_open` -/
  filp : ErrPtr
  /-- `file_dup_filp` has a free slot -/
  slot : Bool
  content : Bytes
  /-- the stack under `tmp_int` and `tot_ino` of `stg1_read_super` -/
  tmpInt : Word
  totIno : Word

/-- The lists of a super block. -/
inductive StgList where
  | inodes
  | map (side : Side)
  deriving DecidableEq

/-- The storage of a super block and what is left of the file; whether a value was used that was not
read; and the lists that were destroyed. -/
structure Stg where
  /-- the file is open -/
  isOpen : Bool
  input : Bytes
  inodes : Option (List StgInode)
  toOvl : Side → Option (List InoMapping)
  unread : Bool
  freed : List StgList

/-- What a function that works on the storage does: its error or its result, and the storage. -/
def StgM (α : Type) : Type := Stg → Except ℤ α × Stg

instance : Monad StgM where
  pure a := fun s => (.ok a, s)
  bind m f := fun s =>
    match m s with
    | (.ok a, s) => f a s
    | (.error e, s) => (.error e, s)

/-- The function returns `-code`. -/
def fail {α : Type} (code : ℤ) : StgM α := fun s => (.error (-code), s)

/-- The function returns `-code` unless the condition holds. -/
def check (cond : Bool) (code : ℤ) : StgM Unit := if cond then pure () else fail code

/-! ## Reading -/

/-- `read_bytes(fd, buf, amount)`. -/
def readBytes (amount : ℕ) : StgM Bytes := fun s =>
  if ¬ s.isOpen then (.error (-ebadf), s)
  else if amount ≤ s.input.length then
    (.ok (s.input.take amount), { s with input := s.input.drop amount })
  else (.error (-eio), { s with input := [] })

/-- The loop of `read_integer` and `read_long`: the lowest byte comes first. -/
def ofBytes (buf : Bytes) : Word :=
  buf.zipIdx.foldl (fun r b => r ||| BitVec.ofNat 32 b.1.toNat <<< (b.2 * 8)) 0

/-- `read_integer(fd, result, change_mode)`. -/
def readInteger : StgM Word := do
  let buf ← readBytes 4
  return ofBytes buf

/-- `read_long(fd, result, change_mode)`. -/
def readLong : StgM Word := do
  let buf ← readBytes 4
  return ofBytes buf

/-- A read the result of which is not checked: the variable keeps what was on the stack. -/
def unchecked (read : StgM Word) (stack : Word) : StgM Word := fun s =>
  match read s with
  | (.ok w, s) => (.ok w, s)
  | (.error _, s) => (.ok stack, { s with unread := true })

/-! ## The list of inodes -/

/-- `ovlfs_add_inode(sup_blk, NULL, 0)`; the inode is given by its number. -/
def ovlfsAddInode (E : Env) : StgM ℕ := fun s =>
  match s.inodes, E.memory.inodeList with
  | none, false => (.error (-enomem), s)
  | inodes, _ =>
    let l := inodes.getD []
    if E.memory.inode (l.length + 1) then
      (.ok (l.length + 1), { s with inodes := some (l ++ [newInode (l.length + 1)]) })
    else (.error (-enomem), { s with inodes := some l })

/-- An inode of the list is changed. -/
def updInode (ino : ℕ) (f : StgInode → StgInode) : StgM Unit := fun s =>
  (.ok (), { s with inodes := s.inodes.map (·.modify (ino - 1) f) })

/-- `set_ino_flags(sup_blk, ino, set_flags)`. -/
def setInoFlags (ino : ℕ) (flags : Word) (l : List StgInode) : List StgInode :=
  if ino = 0 then l
  else l.modify (ino - 1) fun i => { i with s := { i.s with flags := i.s.flags ||| flags } }

/-- `comp_dirent(ent1, ent2)` is 0. -/
def sameEntry (name : Bytes) (e : DirInfo) : Bool :=
  e.name.length = name.length && strncmp name.length name e.name = 0

/-- An entry of a directory is removed that is marked as unlinked. -/
def StgInode.removeDirent (i : StgInode) (dirent : DirInfo) : StgInode :=
  { i with dirEntries := i.dirEntries.map (·.erase dirent), numRmEnt := i.numRmEnt - 1 }

def StgInode.withDirent (i : StgInode) (name : Bytes) (entIno flags : Word) : StgInode :=
  { i with
    dirEntries := some (i.dirEntries.getD [] ++ [⟨name, entIno, flags, i.lastDirPos⟩])
    lastDirPos := i.lastDirPos + 1
    numRmEnt := if flags &&& direntUnlinked ≠ 0 then i.numRmEnt + 1 else i.numRmEnt }

/-- The part of `ovlfs_ino_add_dirent` before the new entry is made: the flags of that, and the
inodes. An inode that is linked again has no base reference. -/
def checkDirent (ino : ℕ) (name : Bytes) (entIno flags : Word) (l : List StgInode) :
    Except ℤ (Word × List StgInode) :=
  let entries := (l[ino - 1]?.bind (·.dirEntries)).getD []
  match entries.find? (sameEntry name) with
  | none => .ok (flags, l)
  | some dirent =>
    if dirent.flags &&& direntUnlinked ≠ 0 then
      .ok (flags ||| direntRelinked,
        setInoFlags entIno.toNat noBaseRef (l.modify (ino - 1) (·.removeDirent dirent)))
    else .error (-eexist)

/-- `ovlfs_ino_add_dirent(ino, name, len, ent_ino, flags)`, for the `k`-th entry that is read. -/
def ovlfsInoAddDirent (E : Env) (ino k : ℕ) (name : Bytes) (entIno flags : Word) :
    StgM Unit := fun s =>
  -- the name of an entry with no length is `NULL`
  if name = [] then (.error (-einval), s)
  else match checkDirent ino name entIno flags (s.inodes.getD []) with
    | .error e => (.error e, s)
    | .ok (flags, l) =>
      if E.memory.direntList ino ∧ E.memory.dirent ino k then
        (.ok (), { s with inodes := some (l.modify (ino - 1) (·.withDirent name entIno flags)) })
      else (.error (-enomem), { s with inodes := some l })

/-! ## Inodes of the file -/

/-- `OVL_STG_FLAG__BASE_MAPPINGS` and `OVL_STG_FLAG__STG_MAPPINGS`. -/
def mappingFlag : Side → Word
  | .base => 1
  | .stg => 2

def InodeSpecial.withMapping (s : InodeSpecial) (side : Side) (dev ino : Word) : InodeSpecial :=
  match side with
  | .base => { s with baseDev := dev, baseIno := ino }
  | .stg => { s with stgDev := dev, stgIno := ino }

/-- The mapping of an inode is read when the file has it, and kept when the mount stores it. -/
def readMapping (E : Env) (stgFlags : Word) (side : Side) (s : InodeSpecial) : StgM InodeSpecial :=
  if stgFlags &&& mappingFlag side ≠ 0 then do
    let dev ← readInteger
    let ino ← readLong
    return if E.storeMap side then s.withMapping side dev ino else s
  else return s

/-- `stg1_read_inode_spec(fd, sup_blk, s, stg_flags, change_mode)`. -/
def stg1ReadInodeSpec (E : Env) (ino : ℕ) (s : InodeSpecial) (stgFlags : Word) :
    StgM InodeSpecial := do
  let parentIno ← readLong
  let s ← readMapping E stgFlags .base { s with parentIno := parentIno }
  let s ← readMapping E stgFlags .stg s
  let flags ← readInteger
  let len ← readInteger
  if 0 < len.toInt then do
    check (E.memory.inodeName ino) enomem
    let name ← readBytes len.toNat
    return { s with flags := flags, len := len, name := name }
  else return { s with flags := flags, len := len }

/-- One turn of the loop of `stg1_read_inode_det`. -/
def readDirent (E : Env) (ino k : ℕ) : StgM Unit := do
  let len ← readInteger
  let name ← if 0 < len.toInt then do
      check (E.memory.entryName ino k) enomem
      readBytes len.toNat
    else pure []
  let entIno ← readInteger
  let flags ← readInteger
  ovlfsInoAddDirent E ino k name entIno flags

/-- The loop over `n` entries from the `k`-th on. -/
def readDirents (E : Env) (ino : ℕ) : ℕ → ℕ → StgM Unit
  | _, 0 => return ()
  | k, n + 1 => do
    readDirent E ino k
    readDirents E ino (k + 1) n

/-- `stg1_read_inode_det(fd, ino, change_mode)`. -/
def stg1ReadInodeDet (E : Env) (ino : ℕ) (mode : BitVec 16) : StgM Unit :=
  if isDevice mode then do
    let value ← readInteger
    updInode ino fun i => { i with intValue := value }
  else if isDir mode then do
    let totEnt ← readInteger
    readDirents E ino 0 totEnt.toInt.toNat
  else return ()

/-- `stg1_read_inode(fd, sup_blk, ino, stg_flags, change_mode)`. What is read of the inode itself is
put to the list before the entries of a directory are. -/
def stg1ReadInode (E : Env) (ino : ℕ) (stgFlags : Word) : StgM Unit := do
  let _totSize ← readInteger
  let _flags ← readInteger
  let uid ← readInteger
  let gid ← readInteger
  let mode ← readInteger
  let size ← readInteger
  let atime ← readInteger
  let mtime ← readInteger
  let ctime ← readInteger
  let nlink ← readInteger
  let blksize ← readLong
  let blocks ← readLong
  let version ← readLong
  let nrpages ← readLong
  let s ← stg1ReadInodeSpec E ino (newInode ino).s stgFlags
  let mode := mode.setWidth 16
  updInode ino fun i => { i with
    uid, gid, mode, size, atime, mtime, ctime, nlink, blksize, blocks, version, nrpages, s
    attValid := mode ≠ 0 }
  stg1ReadInodeDet E ino mode

/-- The loop of `stg1_read_super`. -/
def readInodes (E : Env) (stgFlags : Word) : ℕ → StgM Unit
  | 0 => return ()
  | n + 1 => do
    let ino ← ovlfsAddInode E
    stg1ReadInode E ino stgFlags
    readInodes E stgFlags n

/-! ## Mappings of the file -/

def insertMapping (E : Env) (side : Side) (k : ℕ) (map : InoMapping) : StgM Unit := fun s =>
  if E.memory.map side k then
    (.ok (), { s with
      toOvl := Function.update s.toOvl side (some ((s.toOvl side).getD [] ++ [map])) })
  else (.error (-enomem), s)

/-- The loop of `ovlfs_read_mappings` over `n` mappings from the `k`-th on. -/
def readMaps (E : Env) (side : Side) : ℕ → ℕ → StgM Unit
  | _, 0 => return ()
  | k, n + 1 => do
    let dev ← readInteger
    let ino ← readInteger
    let ovlIno ← readInteger
    insertMapping E side k ⟨dev, ino, ovlIno⟩
    readMaps E side (k + 1) n

/-- `create_ino_map_list()`, unless there is a list. -/
def createMapList (E : Env) (side : Side) : StgM Unit := fun s =>
  match s.toOvl side with
  | some _ => (.ok (), s)
  | none =>
    if E.memory.mapList side then (.ok (),
      { s with toOvl := Function.update s.toOvl side (some []) })
    else (.error (-enomem), s)

/-- `file_lseek(fd, offset, SEEK_CUR)`, which may go behind the end of the file. -/
def seekForward (offset : ℕ) : StgM Unit := fun s =>
  (.ok (), { s with input := s.input.drop offset })

/-- `ovlfs_read_mappings(fd, map_list, change_mode, skip)`. -/
def ovlfsReadMappings (E : Env) (side : Side) : StgM Unit := do
  let totEnt ← readInteger
  if 0 < totEnt.toInt then
    -- the size is an `_uint`
    if ¬ E.storeMap side then seekForward (12 * totEnt).toNat
    else do
      createMapList E side
      readMaps E side 0 totEnt.toNat
  else return ()

/-! ## The super block of the file -/

/-- `open_stg_file(sb, O_RDONLY, 0)`: whether the file is open, or the error. Without an inode of
the file the error is `-ENOENT`; the descriptor of a file that was opened by its name is not
returned. -/
def openStgFile (E : Env) (stgInode : Bool) : Except ℤ Unit :=
  if ¬ stgInode then .error (-enoent)
  else match E.dentry with
    | .error code => .error (-(code + 1))
    | .null => .error (-enoent)
    | .valid => match E.filp with
      | .error code => .error (-(code + 1))
      | .null => .error (-enoent)
      | .valid => if E.slot then .ok () else .error (-enfile)

/-- `MAGIC_WORD_V3` and `MAGIC_WORD_V4`. -/
def magicWordV3 : Bytes := [79, 118, 108, 51]

/-- The magic word of version 4. -/
def magicWordV4 : Bytes := [79, 118, 108, 52]

/-- `stg1_read_magic(fd, p_flags)`. -/
def stg1ReadMagic : StgM Word := do
  let magicBuf ← readBytes 4
  if magicBuf = magicWordV4 then readInteger
  else if magicBuf = magicWordV3 then return mappingFlag .base ||| mappingFlag .stg
  else fail eio

/-- `OVLFS_SUPER_MAGIC`, which is the `s_magic` of the super block. -/
def sMagic : Word := 0xFE0F

/-- What `stg1_read_super` does with a file that has `tot_ino` inodes. -/
def readContents (E : Env) (stgFlags totIno : Word) : StgM Unit := do
  readInodes E stgFlags totIno.toInt.toNat
  ovlfsReadMappings E .base
  ovlfsReadMappings E .stg

/-- What `stg1_read_super` does with its descriptor. -/
def readFile (E : Env) : StgM Unit := do
  let tmpInt ← unchecked readInteger E.tmpInt
  check (tmpInt = sMagic) eio
  let stgFlags ← stg1ReadMagic
  let totIno ← unchecked readInteger E.totIno
  readContents E stgFlags totIno

/-- `stg1_read_super(sup_blk)`. -/
def stg1ReadSuper (E : Env) (stgInode : Bool) : StgM Unit := fun s =>
  match openStgFile E stgInode with
  | .error fd =>
    -- an error other than `-ENOENT` is returned, and that one is taken for a descriptor
    if fd ≠ -enoent then (.error fd, s) else readFile E s
  | .ok () =>
    if E.content = [] then (.error (-enoent), s)
    else readFile E { s with isOpen := true, input := E.content }

/-! ## `ovlfs_stg1_read_super` -/

/-- `stg1_parse_one_opt(opts, name, value)`. -/
def stg1ParseOneOpt (E : Env) (name : String) : Option String → Except ℤ String
  | some value =>
    if name = "stg_file" ∨ name = "sf" then
      if E.memory.dupString then .ok value else .error (-enomem)
    else .error (-einval)
  | none => .error (-einval)

/-- `stg1_parse_opts(opts, opt_str)`: the name of the storage file, if there is one. -/
def stg1ParseOpts (E : Env) : List (String × Option String) → Option String →
    Except ℤ (Option String)
  | [], stgName => .ok stgName
  | (name, value) :: options, _ =>
    match stg1ParseOneOpt E name value with
    | .error e => .error e
    | .ok value => stg1ParseOpts E options (some value)

/-- `stg1_fill_in_opts(opts)`, with `get_stg_file_inode`: whether there is an inode of the file. -/
def stg1FillInOpts (E : Env) (stgName : Option String) : Bool :=
  stgName.isSome && (E.found || E.created)

def Stg.lists (s : Stg) : List StgList :=
  (if s.inodes.isSome then [.inodes] else []) ++
    (if (s.toOvl .base).isSome then [.map .base] else []) ++
    if (s.toOvl .stg).isSome then [.map .stg] else []

/-- `stg1_free_super_info(sup_blk)`. -/
def stg1FreeSuperInfo (s : Stg) : Stg :=
  { s with inodes := none, toOvl := fun _ => none, freed := s.freed ++ s.lists }

/-- `S_IFDIR | S_IRUGO | S_IXUGO`. -/
def rootMode : BitVec 16 := 0o040555

/-- `OVLFS_ROOT_INO`. -/
def rootIno : ℕ := 1

/-- The part of `ovlfs_stg1_read_super` that starts fresh. -/
def startFresh (E : Env) (s : Stg) : ℤ × Stg :=
  match ovlfsAddInode E s with
  | (.ok ino, s) =>
    if ino = rootIno then
      (0, (updInode ino (fun i => { i with
        s := { i.s with parentIno := BitVec.ofNat 32 rootIno }, mode := i.mode ||| rootMode }) s).2)
    -- the storage is released here, and below
    else (-enomem, stg1FreeSuperInfo (stg1FreeSuperInfo s))
  | (.error _, s) => (-enomem, stg1FreeSuperInfo (stg1FreeSuperInfo s))

/-- The storage that `ovlfs_stg1_read_super` has initialized. -/
def Stg.init : Stg := ⟨false, [], none, fun _ => none, false, []⟩

/-- `ovlfs_stg1_read_super(sup_blk, opt_str)`. -/
def ovlfsStg1ReadSuper (E : Env) : ℤ × Stg :=
  match stg1ParseOpts E E.options none with
  | .error e => (e, stg1FreeSuperInfo .init)
  | .ok stgName =>
    match stg1ReadSuper E (stg1FillInOpts E stgName) .init with
    | (.ok (), s) => if (s.inodes.getD []).length > 0 then (0, s) else startFresh E s
    | (.error e, s) => if e ≠ -enoent then (e, stg1FreeSuperInfo s) else startFresh E s

end Ovlfs.Stg1
