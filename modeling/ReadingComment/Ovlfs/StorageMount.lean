import ReadingComment.Ovlfs.StorageReaders

/-!
# What a mount makes of a storage file (`fs/ovl_stg.c`)

A mount reads the inodes of its storage file, starts fresh without a file, or fails and releases
what it has; except that

* a storage without a file, and one that cannot be opened for `ENOENT`, is read nevertheless;
* the magic number and the number of inodes are used even if they could not be read;
* a file without inodes counts as none;
* mappings that are skipped need not be in the file.
-/

namespace Ovlfs.Stg1

open Lib (Bytes)
open List

/-! ## What is asked of a mount -/

def rootInode : StgInode :=
  { newInode rootIno with
    s := { (newInode rootIno).s with parentIno := BitVec.ofNat 32 rootIno }
    mode := rootMode }

def opened (E : Env) (stgName : Option String) : Except ℤ Unit :=
  openStgFile E (stg1FillInOpts E stgName)

def NoFile (E : Env) : Prop :=
  ∃ stgName, stg1ParseOpts E E.options none = .ok stgName ∧
    (opened E stgName = .error (-enoent) ∨ opened E stgName = .ok () ∧ E.content = [])

/-- Nothing is used that was not read. The mount returns 0 with the inodes that the whole file
describes; or, without a file, with the root inode; or it returns a negative code, and every list
that was made is destroyed once. -/
structure MountsRight (E : Env) (r : ℤ × Stg) : Prop where
  unread : r.2.unread = false
  result : (r.1 = 0 ∧ r.2.freed = [] ∧ ∃ f l, rawFile E.content = some f ∧
      f.build E.storeMap = some l ∧ r.2.inodes = some l) ∨
    (NoFile E ∧ r.1 = 0 ∧ r.2.freed = [] ∧ r.2.inodes = some [rootInode]) ∨
    (r.1 < 0 ∧ r.2.lists = [] ∧ r.2.freed.Nodup)

/-- The file goes on with the number of inodes; and if what comes then can be read, there is an
inode and the tables of mappings are complete, or there is no memory for a root inode. -/
def CountFits (E : Env) (stgFlags : Word) (c : Bytes) : Prop :=
  ∃ totIno c', word c = some (totIno, c') ∧ ∀ rs l, Readable E stgFlags totIno c' rs l →
    if 0 < totIno.toInt then (rawContents stgFlags totIno c').isSome
    else ¬ (E.memory.inodeList ∧ E.memory.inode rootIno)

/-- The file has its magic number; and with the right one and a magic word it goes on as it should.
-/
def FileFits (E : Env) : Prop :=
  ∃ magic c, word E.content = some (magic, c) ∧
    (magic = sMagic → ∀ stgFlags c', rawMagic c = some (stgFlags, c') → CountFits E stgFlags c')

/-- The options are wrong; or the storage file has an inode, and opening it fails for another reason
than `ENOENT`, or it is empty or fits. -/
def MountsWell (E : Env) : Prop :=
  ∀ stgName, stg1ParseOpts E E.options none = .ok stgName →
    opened E stgName ≠ .error (-enoent) ∧
      (opened E stgName = .ok () → E.content = [] ∨ FileFits E)

/-! ## The end of a mount -/

/-- What `ovlfs_stg1_read_super` does after the file was read. -/
def finish (E : Env) : Except ℤ Unit × Stg → ℤ × Stg
  | (.ok (), s) => if (s.inodes.getD []).length > 0 then (0, s) else startFresh E s
  | (.error e, s) => if e ≠ -enoent then (e, stg1FreeSuperInfo s) else startFresh E s

section

variable {E : Env} {s s' : Stg} {e : ℤ} {stgName : Option String}

theorem ovlfsStg1ReadSuper_eq (h : stg1ParseOpts E E.options none = .ok stgName) :
    ovlfsStg1ReadSuper E = finish E (stg1ReadSuper E (stg1FillInOpts E stgName) .init) := by
  rw [ovlfsStg1ReadSuper, h]
  rfl

theorem lists_nodup (s : Stg) : s.lists.Nodup := by
  unfold Stg.lists
  split <;> split <;> split <;> decide

theorem lists_freed (s : Stg) : (stg1FreeSuperInfo s).lists = [] := rfl

theorem free_freed (s : Stg) : stg1FreeSuperInfo (stg1FreeSuperInfo s) = stg1FreeSuperInfo s := by
  rw [stg1FreeSuperInfo, lists_freed, append_nil]
  rfl

theorem MountsRight.failed (hu : s.unread = false) (hf : s.freed = []) (he : e < 0) :
    MountsRight E (e, stg1FreeSuperInfo s) := by
  refine ⟨hu, .inr (.inr ⟨he, rfl, ?_⟩)⟩
  change (s.freed ++ s.lists).Nodup
  rw [hf, nil_append]
  exact lists_nodup s

theorem startFresh_unread : (startFresh E s).2.unread = s.unread := by
  have hadd := (tame_ovlfsAddInode E).unread s
  unfold startFresh
  split
  case h_1 ino s₁ h =>
    rw [h] at hadd
    split
    · exact hadd
    · exact hadd
  case h_2 e s₁ h =>
    rw [h] at hadd
    exact hadd

theorem finish_unread (r : Except ℤ Unit × Stg) : (finish E r).2.unread = r.2.unread := by
  unfold finish
  split
  · split
    · rfl
    · exact startFresh_unread
  · split
    · rfl
    · exact startFresh_unread

theorem startFresh_ok (hs : s.inodes = none) (hm : E.memory.inodeList ∧ E.memory.inode rootIno) :
    startFresh E s = (0, { s with inodes := some [rootInode] }) := by
  have hadd := (ovlfsAddInode_ok (E := E) (s := s) (l := []) (by rw [hs]; rfl) (by simp [hs])).mpr
    ⟨hm.1, hm.2, rfl, rfl⟩
  rw [startFresh, hadd]
  rfl

theorem startFresh_failed (hs : s.inodes = none)
    (hm : ¬ (E.memory.inodeList ∧ E.memory.inode rootIno))
    (hu : s.unread = false) (hf : s.freed = []) : MountsRight E (startFresh E s) := by
  have htame := tame_ovlfsAddInode E
  rcases hadd : ovlfsAddInode E s with ⟨e | ino, s₁⟩
  · have hu₁ := htame.unread s
    have hf₁ := htame.freed s
    rw [hadd] at hu₁ hf₁
    rw [startFresh, hadd]
    dsimp only
    rw [free_freed]
    exact .failed (hu₁.trans hu) (hf₁.trans hf) (by decide)
  · obtain ⟨hlist, hino, -⟩ :=
      (ovlfsAddInode_ok (l := []) (by rw [hs]; rfl) (by simp [hs])).mp hadd
    exact absurd ⟨hlist, hino⟩ hm

theorem startFresh_right (hno : NoFile E) (hs : s.inodes = none) (hu : s.unread = false)
    (hf : s.freed = []) : MountsRight E (startFresh E s) := by
  by_cases hm : E.memory.inodeList ∧ E.memory.inode rootIno
  · rw [startFresh_ok hs hm]
    exact ⟨hu, .inr (.inl ⟨hno, rfl, hf, rfl⟩)⟩
  · exact startFresh_failed hs hm hu hf

/-! ## Values that were not read -/

/-- A function that does not forget that a value was used that was not read. -/
def Keeps {α : Type} (m : StgM α) : Prop := ∀ s, s.unread = true → (m s).2.unread = true

theorem Keeps.of_tame {α : Type} {m : StgM α} (hm : Tame m) : Keeps m := fun s hs =>
  (hm.unread s).trans hs

theorem Keeps.bind {α β : Type} {m : StgM α} {f : α → StgM β} (hm : Keeps m)
    (hf : ∀ a, Keeps (f a)) :
    Keeps (m >>= f) := by
  intro s hs
  have hs₁ := hm s hs
  rw [run_bind]
  rcases hrun : m s with ⟨e | a, s₁⟩
  · rwa [hrun] at hs₁
  · rw [hrun] at hs₁
    exact hf a s₁ hs₁

theorem keeps_unchecked {m : StgM Word} (hm : Tame m) (w : Word) : Keeps (unchecked m w) := by
  intro s hs
  have hu := hm.unread s
  unfold unchecked
  split
  case h_1 w' s₁ h =>
    rw [h] at hu
    exact hu.trans hs
  case h_2 => rfl

/-- What `stg1_read_super` does after the magic number. -/
def readAfterMagic (E : Env) (tmpInt : Word) : StgM Unit := do
  check (tmpInt = sMagic) eio
  let stgFlags ← stg1ReadMagic
  let totIno ← unchecked readInteger E.totIno
  readContents E stgFlags totIno

theorem readFile_eq : readFile E = unchecked readInteger E.tmpInt >>= readAfterMagic E := rfl

theorem keeps_readAfterMagic (tmpInt : Word) : Keeps (readAfterMagic E tmpInt) :=
  (Keeps.of_tame (tame_check _ (by decide) (by decide))).bind fun _ =>
    (Keeps.of_tame tame_stg1ReadMagic).bind fun _ =>
      (keeps_unchecked tame_readInteger _).bind fun _ => .of_tame (tame_readContents E _ _)

theorem unchecked_read {w x : Word} {c : Bytes} (hs : s.isOpen) (hw : word s.input = some (w, c)) :
    unchecked readInteger x s = (.ok w, s.after c) := by
  rw [unchecked, (readInteger_ok hs).mpr ⟨c, hw, rfl⟩]

theorem unchecked_unread {x : Word} (hs : s.isOpen → word s.input = none) :
    ∃ s', unchecked readInteger x s = (.ok x, s') ∧ s'.unread = true := by
  rcases hread : readInteger s with ⟨e | w, s₁⟩
  · exact ⟨_, by rw [unchecked, hread], rfl⟩
  · by_cases hopen : s.isOpen
    · obtain ⟨c, hc, -⟩ := (readInteger_ok hopen).mp hread
      rw [hs hopen] at hc
      cases hc
    · obtain ⟨buf, s₂, hbuf, -⟩ := bind_ok.mp hread
      rw [readBytes, if_pos hopen] at hbuf
      cases hbuf

theorem readFile_unread (hs : s.isOpen → word s.input = none) : (readFile E s).2.unread = true := by
  obtain ⟨s', hs', hu⟩ := unchecked_unread (x := E.tmpInt) hs
  rw [readFile_eq, run_bind, hs']
  exact keeps_readAfterMagic _ s' hu

/-! ## Files -/

theorem not_right_of_unread {r : Except ℤ Unit × Stg} (hu : r.2.unread = true) :
    ¬ MountsRight E (finish E r) := by
  intro h
  have := h.unread
  rw [finish_unread, hu] at this
  cases this

theorem many_length {α : Type} {p : Bytes → Option (α × Bytes)} :
    ∀ {n : ℕ} {c c' : Bytes} {as : List α}, many p n c = some (as, c') → as.length = n
  | 0, _, _, _, h => by
    obtain ⟨rfl, -⟩ := many_zero_eq.mp h
    rfl
  | n + 1, _, _, _, h => by
    obtain ⟨a, c₁, as, -, hm, rfl⟩ := many_succ_eq.mp h
    rw [length_cons, many_length hm]

theorem foldlM_put_length {storeMap : Side → Bool} {rs : List RawInode} {l l' : List StgInode}
    (h : rs.foldlM (RawInode.put storeMap) l = some l') : l'.length = l.length + rs.length := by
  induction rs generalizing l with
  | nil =>
    cases h
    rfl
  | cons r rs ih =>
    rw [foldlM_cons] at h
    obtain ⟨l₁, hput, h⟩ := Option.bind_eq_some_iff.mp h
    rw [ih h, RawInode.put_length hput, length_cons]
    omega

theorem rawContents_inodes {stgFlags totIno : Word} {c c₁ : Bytes} {f : RawFile}
    {rs : List RawInode}
    (hf : rawContents stgFlags totIno c = some f)
    (hrs : many (rawInode stgFlags) totIno.toInt.toNat c = some (rs, c₁)) : f.inodes = rs := by
  simp only [rawContents, hrs, Option.bind_eq_bind, Option.bind_some, Option.bind_eq_some_iff,
    Option.pure_def, Option.some.injEq, Prod.exists] at hf
  obtain ⟨base, c₂, -, stg, c₃, -, rfl⟩ := hf
  rfl

/-- What a storage is like while its file is opened and nothing was put to it. -/
structure Stg.Fresh (s : Stg) : Prop where
  isOpen : s.isOpen = true
  inodes : s.inodes = none
  toOvl : ∀ side, s.toOvl side = none
  unread : s.unread = false
  freed : s.freed = []

theorem Stg.Fresh.after (h : s.Fresh) (c : Bytes) : (s.after c).Fresh :=
  ⟨h.isOpen, h.inodes, h.toOvl, h.unread, h.freed⟩

theorem failed_right {α : Type} {m : StgM α} (hm : Tame m) (h : s.Fresh)
    (hrun : m s = (.error e, s')) :
    MountsRight E (finish E (.error e, s')) := by
  obtain ⟨hneg, hne⟩ := hm.error s e s' hrun
  have hu := hm.unread s
  have hf := hm.freed s
  rw [hrun] at hu hf
  rw [finish, if_pos hne]
  exact .failed (hu.trans h.unread) (hf.trans h.freed) hneg

/-- After the number of inodes the inodes are read, and the file is complete; or something cannot be
read; or there are no inodes, and no memory for the one that is made. -/
theorem readContents_right {stgFlags totIno : Word} (hno : ¬ NoFile E) (h : s.Fresh)
    (hfile : rawFile E.content = rawContents stgFlags totIno s.input) :
    MountsRight E (finish E (readContents E stgFlags totIno s)) ↔
      ∀ rs l, Readable E stgFlags totIno s.input rs l →
        if 0 < totIno.toInt then (rawContents stgFlags totIno s.input).isSome
        else ¬ (E.memory.inodeList ∧ E.memory.inode rootIno) := by
  have htame := tame_readContents E stgFlags totIno
  rcases hrun : readContents E stgFlags totIno s with ⟨e | ⟨⟨⟩⟩, s'⟩
  · refine ⟨fun _ rs l hread => ?_, fun _ => failed_right htame h hrun⟩
    obtain ⟨s₁, hok, -⟩ := (readContents_ok h.isOpen h.inodes h.toOvl).mpr ⟨rs, l, hread, rfl⟩
    rw [hrun] at hok
    cases hok
  · obtain ⟨rs, l, hread, hl⟩ := (readContents_ok h.isOpen h.inodes h.toOvl).mp ⟨s', hrun, rfl⟩
    have hu := htame.unread s
    have hf := htame.freed s
    rw [hrun] at hu hf
    have hu' : s'.unread = false := hu.trans h.unread
    have hf' : s'.freed = [] := hf.trans h.freed
    obtain ⟨c₁, c₂, c₃, t, t', hrs, -⟩ := hread.read
    have hlen : l.length = totIno.toInt.toNat := by
      rw [foldlM_put_length hread.put, many_length hrs, length_nil, Nat.zero_add]
    by_cases hpos : 0 < totIno.toInt
    · have hl' : s'.inodes = some l := by rw [hl, if_neg (by omega)]
      have hfin : finish E (.ok (), s') = (0, s') := by
        rw [finish, hl', Option.getD_some, if_pos (by omega)]
      rw [hfin]
      constructor
      · rintro ⟨-, ⟨-, -, f, l', hf, -⟩ | ⟨hno', -⟩ | ⟨hneg, -⟩⟩ rs' l' -
        · rw [if_pos hpos, ← hfile, hf]
          rfl
        · exact absurd hno' hno
        · exact absurd hneg (lt_irrefl 0)
      · intro hall
        have hsome := hall rs l hread
        rw [if_pos hpos] at hsome
        obtain ⟨f, hraw⟩ := Option.isSome_iff_exists.mp hsome
        refine ⟨hu', .inl ⟨rfl, hf', f, l, hfile.trans hraw, ?_, hl'⟩⟩
        rw [RawFile.build, rawContents_inodes hraw hrs]
        exact hread.put
    · have hzero : totIno.toInt.toNat = 0 := by omega
      have hl' : s'.inodes = none := by rw [hl, if_pos hzero]
      have hfin : finish E (.ok (), s') = startFresh E s' := by
        rw [finish, hl']
        rfl
      rw [hfin]
      constructor
      · intro hright rs' l' _
        rw [if_neg hpos]
        intro hm
        rw [startFresh_ok hl' hm] at hright
        obtain ⟨-, ⟨-, -, f, l', hraw, hbuild, hin⟩ | ⟨hno', -⟩ | ⟨hneg, -⟩⟩ := hright
        · -- a file without inodes describes none
          rw [hfile] at hraw
          have hnil : rs = [] := length_eq_zero_iff.mp ((many_length hrs).trans hzero)
          rw [RawFile.build, rawContents_inodes hraw hrs, hnil] at hbuild
          cases hbuild
          cases hin
        · exact absurd hno' hno
        · exact absurd hneg (lt_irrefl 0)
      · intro hall
        have hm := hall rs l hread
        rw [if_neg hpos] at hm
        exact startFresh_failed hl' hm hu' hf'

theorem readCount_right {stgFlags : Word} (hno : ¬ NoFile E) (h : s.Fresh)
    (hfile : ∀ totIno c, word s.input = some (totIno, c) →
      rawFile E.content = rawContents stgFlags totIno c) :
    MountsRight E (finish E ((unchecked readInteger E.totIno >>= readContents E stgFlags) s)) ↔
      CountFits E stgFlags s.input := by
  rcases hcount : word s.input with _ | ⟨totIno, c⟩
  · obtain ⟨s', hs', hu⟩ := unchecked_unread (s := s) (x := E.totIno) fun _ => hcount
    have hu' : (readContents E stgFlags E.totIno s').2.unread = true :=
      ((tame_readContents E stgFlags E.totIno).unread s').trans hu
    rw [run_bind, hs']
    refine ⟨fun hright => absurd hright (not_right_of_unread hu'), ?_⟩
    rintro ⟨totIno, c, hc, -⟩
    rw [hcount] at hc
    cases hc
  · rw [run_bind, unchecked_read h.isOpen hcount]
    dsimp only
    rw [readContents_right hno (h.after c) (hfile totIno c hcount), Stg.input_after]
    constructor
    · intro hall
      exact ⟨totIno, c, hcount, hall⟩
    · rintro ⟨_, _, hc, hall⟩
      obtain ⟨rfl, rfl⟩ := Prod.mk.inj (Option.some.inj (hcount.symm.trans hc))
      exact hall

theorem readFile_right (hno : ¬ NoFile E) (h : s.Fresh) (hin : s.input = E.content) :
    MountsRight E (finish E (readFile E s)) ↔ FileFits E := by
  rcases hmagic : word E.content with _ | ⟨magic, c⟩
  · refine ⟨fun hright => ?_, ?_⟩
    · exact absurd hright (not_right_of_unread (readFile_unread fun _ => by rw [hin, hmagic]))
    · rintro ⟨magic, c, hc, -⟩
      rw [hmagic] at hc
      cases hc
  · have h₁ := h.after c
    have hfits : FileFits E ↔ (magic = sMagic → ∀ stgFlags c', rawMagic c = some (stgFlags, c') →
        CountFits E stgFlags c') := by
      constructor
      · rintro ⟨_, _, hc, hrest⟩
        obtain ⟨rfl, rfl⟩ := Prod.mk.inj (Option.some.inj (hmagic.symm.trans hc))
        exact hrest
      · intro hrest
        exact ⟨magic, c, hmagic, hrest⟩
    have hrun : readFile E s = readAfterMagic E magic (s.after c) := by
      rw [readFile_eq, run_bind, unchecked_read h.isOpen (hin ▸ hmagic)]
    rw [hfits, hrun]
    by_cases hm : magic = sMagic
    · subst hm
      have hrun' : readAfterMagic E sMagic (s.after c) = (stg1ReadMagic >>= fun stgFlags =>
          unchecked readInteger E.totIno >>= readContents E stgFlags) (s.after c) := rfl
      rw [hrun', run_bind]
      rcases hflags : stg1ReadMagic (s.after c) with ⟨e | stgFlags, s₂⟩
      · refine ⟨fun _ _ stgFlags c' hraw => ?_, fun _ => ?_⟩
        · rw [(stg1ReadMagic_ok h₁.isOpen).mpr ⟨c', hraw, rfl⟩] at hflags
          cases hflags
        · exact failed_right tame_stg1ReadMagic h₁ hflags
      · obtain ⟨c', hraw, rfl⟩ := (stg1ReadMagic_ok h₁.isOpen).mp hflags
        dsimp only
        rw [readCount_right hno (h₁.after c'), Stg.input_after]
        · constructor
          · rintro hcount - _ _ hc
            obtain ⟨rfl, rfl⟩ := Prod.mk.inj (Option.some.inj (hraw.symm.trans hc))
            exact hcount
          · intro hall
            exact hall rfl stgFlags c' hraw
        · intro totIno c'' hcount
          rw [Stg.input_after] at hraw hcount
          simp [rawFile, hmagic, hraw, hcount]
    · refine ⟨fun _ heq => absurd heq hm, fun _ => ?_⟩
      have hfail : readAfterMagic E magic (s.after c) = (.error (-eio), s.after c) := by
        rw [readAfterMagic, run_bind, check, if_neg (by simpa using hm)]
        rfl
      rw [hfail, finish, if_pos (by decide)]
      exact .failed h₁.unread h₁.freed (by decide)

/-! ## Mounts -/

theorem openStgFile_error {stgInode : Bool} (h : openStgFile E stgInode = .error e) : e < 0 := by
  unfold openStgFile at h
  split at h
  · cases h
    decide
  · split at h
    · cases h
      omega
    · cases h
      decide
    · split at h
      · cases h
        omega
      · cases h
        decide
      · split at h
        · cases h
        · cases h
          decide

theorem stg1ParseOpts_error {e : ℤ} : ∀ {options : List (String × Option String)}
    {stgName : Option String}, stg1ParseOpts E options stgName = .error e → e < 0
  | [], _, h => by cases h
  | (name, value) :: options, stgName, h => by
    rw [stg1ParseOpts] at h
    split at h
    case h_1 e' hone =>
      cases h
      unfold stg1ParseOneOpt at hone
      split at hone
      · split at hone
        · split at hone
          · cases hone
          · cases hone
            decide
        · cases hone
          decide
      · cases hone
        decide
    case h_2 => exact stg1ParseOpts_error h

/-- A mount makes of every storage file what it should, exactly if the options are wrong, or the
storage file has an inode and cannot be opened for another reason than `ENOENT`, or is empty or
fits. -/
theorem mounts_right_iff (E : Env) : MountsRight E (ovlfsStg1ReadSuper E) ↔ MountsWell E := by
  rcases hparse : stg1ParseOpts E E.options none with e | stgName
  · have hrun : ovlfsStg1ReadSuper E = (e, stg1FreeSuperInfo .init) := by
      rw [ovlfsStg1ReadSuper, hparse]
    rw [hrun]
    refine ⟨fun _ stgName hok => ?_, fun _ => .failed rfl rfl (stg1ParseOpts_error hparse)⟩
    rw [hparse] at hok
    cases hok
  · have hwell : MountsWell E ↔ opened E stgName ≠ .error (-enoent) ∧
        (opened E stgName = .ok () → E.content = [] ∨ FileFits E) := by
      constructor
      · intro h
        exact h stgName hparse
      · rintro h _ hok
        obtain rfl := Except.ok.inj (hparse.symm.trans hok)
        exact h
    have hfile : NoFile E ↔ opened E stgName = .error (-enoent) ∨
        opened E stgName = .ok () ∧ E.content = [] := by
      constructor
      · rintro ⟨_, hok, h⟩
        obtain rfl := Except.ok.inj (hparse.symm.trans hok)
        exact h
      · intro h
        exact ⟨stgName, hparse, h⟩
    rw [hwell, ovlfsStg1ReadSuper_eq hparse, stg1ReadSuper]
    rcases hopen : openStgFile E (stg1FillInOpts E stgName) with fd | ⟨⟨⟩⟩
    · have hopened : opened E stgName = .error fd := hopen
      rw [hopened]
      dsimp only
      by_cases hfd : fd = -enoent
      · -- no descriptor is read
        subst hfd
        rw [if_neg (by simp)]
        refine ⟨fun hright => ?_, fun h => absurd rfl h.1⟩
        exact absurd hright (not_right_of_unread (readFile_unread nofun))
      · rw [if_pos hfd, finish, if_pos hfd]
        refine ⟨fun _ => ⟨fun h => hfd (Except.error.inj h), nofun⟩, fun _ => ?_⟩
        exact .failed rfl rfl (openStgFile_error hopen)
    · have hopened : opened E stgName = .ok () := hopen
      rw [hopened]
      dsimp only
      by_cases hempty : E.content = []
      · rw [if_pos hempty]
        refine ⟨fun _ => ⟨nofun, fun _ => .inl hempty⟩, fun _ => ?_⟩
        exact startFresh_right (hfile.mpr (.inr ⟨hopened, hempty⟩)) rfl rfl rfl
      · have hno : ¬ NoFile E := by
          rw [hfile, hopened]
          rintro (h | ⟨-, h⟩)
          · cases h
          · exact hempty h
        rw [if_neg hempty, readFile_right hno ⟨rfl, rfl, fun _ => rfl, rfl, rfl⟩ rfl]
        constructor
        · intro hfits
          exact ⟨nofun, fun _ => .inr hfits⟩
        · rintro ⟨-, h⟩
          exact (h rfl).resolve_left hempty

/-- A mount without options, when there is memory for everything. -/
def unnamed : Env where
  options := []
  memory :=
    ⟨true, true, fun _ => true, fun _ => true, fun _ _ => true, fun _ => true, fun _ _ => true,
    fun _ => true, fun _ _ => true⟩
  storeMap := fun _ => false
  found := false
  created := false
  dentry := .valid
  filp := .valid
  slot := true
  content := []
  tmpInt := 0
  totIno := 0

/-- It does not start fresh: no file is read, and the stack is taken for the magic number. -/
theorem unnamed_not_right : (ovlfsStg1ReadSuper unnamed).1 = -eio ∧
    (ovlfsStg1ReadSuper unnamed).2.unread = true ∧
    ¬ MountsRight unnamed (ovlfsStg1ReadSuper unnamed) := by
  have hunread : (ovlfsStg1ReadSuper unnamed).2.unread = true := by decide
  refine ⟨by decide, hunread, fun h => ?_⟩
  rw [h.unread] at hunread
  cases hunread

end

end Ovlfs.Stg1
