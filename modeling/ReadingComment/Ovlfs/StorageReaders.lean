import ReadingComment.Ovlfs.StorageFormat

/-!
# The readers of a storage file (`fs/ovl_stg.c`)

A reader that succeeds has read what the format says, and there was memory for it; it succeeds
whenever this is so. A reader that fails does so with an error other than `-ENOENT`, and destroys no
list.
-/

namespace Ovlfs.Stg1

open Lib (Bytes)
open Function List

/-- The storage when `c` is left of its file. -/
def Stg.after (s : Stg) (c : Bytes) : Stg := { s with input := c }

section

variable (s : Stg) (c c' : Bytes)

@[simp] theorem Stg.isOpen_after : (s.after c).isOpen = s.isOpen := rfl

@[simp] theorem Stg.input_after : (s.after c).input = c := rfl

@[simp] theorem Stg.inodes_after : (s.after c).inodes = s.inodes := rfl

@[simp] theorem Stg.toOvl_after : (s.after c).toOvl = s.toOvl := rfl

@[simp] theorem Stg.after_after : (s.after c).after c' = s.after c' := rfl

end

/-! ## Functions on the storage -/

section

variable {α β : Type} {m : StgM α} {f : α → StgM β} {s s' : Stg} {a a' : α} {b : β} {e : ℤ}

theorem run_bind (m : StgM α) (f : α → StgM β) (s : Stg) : (m >>= f) s =
    match m s with
    | (.ok a, s) => f a s
    | (.error e, s) => (.error e, s) := rfl

theorem run_pure (a : α) (s : Stg) : (pure a : StgM α) s = (.ok a, s) := rfl

theorem bind_ok : (m >>= f) s = (.ok b, s') ↔ ∃ a s₁, m s = (.ok a, s₁) ∧ f a s₁ = (.ok b, s') := by
  rw [run_bind]
  rcases hm : m s with ⟨e | a, s₁⟩
  · simp
  · simp

theorem pure_ok : (pure a : StgM α) s = (.ok a', s') ↔ a = a' ∧ s = s' := by
  rw [run_pure, Prod.mk.injEq, Except.ok.injEq]

theorem check_bind_ok {cond : Bool} {code : ℤ} {g : Unit → StgM β} :
    (check cond code >>= g) s = (.ok b, s') ↔ cond ∧ g () s = (.ok b, s') := by
  rw [run_bind, check]
  cases cond with
  | false => simp [fail]
  | true => simp [run_pure]

/-! ## Reading words -/

variable {n : ℕ} {w : Word} {bs : Bytes}

theorem readBytes_ok (hs : s.isOpen) :
    readBytes n s = (.ok bs, s') ↔ ∃ c, takeBytes n s.input = some (bs, c) ∧ s' = s.after c := by
  rw [readBytes, if_neg (by simp [hs]), takeBytes]
  split
  · simp [Stg.after, eq_comm, and_comm]
  · simp
theorem readInteger_ok (hs : s.isOpen) :
    readInteger s = (.ok w, s') ↔ ∃ c, word s.input = some (w, c) ∧ s' = s.after c := by
  rw [readInteger, bind_ok, word]
  simp only [readBytes_ok hs, pure_ok, Option.map_eq_some_iff, Prod.mk.injEq, Prod.exists]
  constructor
  · rintro ⟨buf, s₁, ⟨c, hc, rfl⟩, hw, rfl⟩
    exact ⟨c, ⟨buf, c, hc, hw, rfl⟩, rfl⟩
  · rintro ⟨c, ⟨buf, c, hc, hw, rfl⟩, rfl⟩
    exact ⟨buf, _, ⟨c, hc, rfl⟩, hw, rfl⟩

theorem readBytes_bind_ok {f : Bytes → StgM β} (hs : s.isOpen) :
    (readBytes n >>= f) s = (.ok b, s') ↔
    ∃ bs c, takeBytes n s.input = some (bs, c) ∧ f bs (s.after c) = (.ok b, s') := by
  rw [bind_ok]
  simp only [readBytes_ok hs]
  constructor
  · rintro ⟨bs, s₁, ⟨c, hc, rfl⟩, hf⟩
    exact ⟨bs, c, hc, hf⟩
  · rintro ⟨bs, c, hc, hf⟩
    exact ⟨bs, _, ⟨c, hc, rfl⟩, hf⟩

theorem readInteger_bind_ok {f : Word → StgM β} (hs : s.isOpen) :
    (readInteger >>= f) s = (.ok b, s') ↔
      ∃ w c, word s.input = some (w, c) ∧ f w (s.after c) = (.ok b, s') := by
  rw [bind_ok]
  simp only [readInteger_ok hs]
  constructor
  · rintro ⟨w, s₁, ⟨c, hc, rfl⟩, hf⟩
    exact ⟨w, c, hc, hf⟩
  · rintro ⟨w, c, hc, hf⟩
    exact ⟨w, _, ⟨c, hc, rfl⟩, hf⟩

theorem readLong_bind_ok {f : Word → StgM β} (hs : s.isOpen) : (readLong >>= f) s = (.ok b, s') ↔
    ∃ w c, word s.input = some (w, c) ∧ f w (s.after c) = (.ok b, s') :=
  readInteger_bind_ok hs

theorem takeBytes_zero (c : Bytes) : takeBytes 0 c = some ([], c) := by simp [takeBytes]

theorem many_zero_eq {p : Bytes → Option (α × Bytes)} {c c' : Bytes} {as : List α} :
    many p 0 c = some (as, c') ↔ as = [] ∧ c' = c := by
  simp [many, eq_comm]

theorem many_succ_eq {p : Bytes → Option (α × Bytes)} {c c' : Bytes} {as : List α} :
    many p (n + 1) c = some (as, c') ↔
      ∃ a c₁ as', p c = some (a, c₁) ∧ many p n c₁ = some (as', c') ∧ as = a :: as' := by
  simp only [many, Option.bind_eq_bind, Option.bind_eq_some_iff, Option.pure_def, Option.some.injEq,
    Prod.mk.injEq, Prod.exists]
  constructor
  · rintro ⟨a, c₁, hp, as', c₂, hm, rfl, rfl⟩
    exact ⟨a, c₁, as', hp, hm, rfl⟩
  · rintro ⟨a, c₁, as', hp, hm, rfl⟩
    exact ⟨a, c₁, hp, as', c', hm, rfl, rfl⟩

end

/-! ## Inodes -/

section

variable {E : Env} {s s' : Stg} {side : Side} {stgFlags : Word} {sp sp' : InodeSpecial}
  {ino k n : ℕ}
  {l : List StgInode}

theorem readMapping_ok (hs : s.isOpen) : readMapping E stgFlags side sp s = (.ok sp', s') ↔
    ∃ r c, rawMapping stgFlags side s.input = some (r, c) ∧ sp' = sp.withRaw E.storeMap side r ∧
      s' = s.after c := by
  rw [readMapping, rawMapping]
  split
  · simp only [readInteger_bind_ok, readLong_bind_ok, hs, pure_ok, Stg.isOpen_after,
      Stg.input_after,
      Stg.after_after, Option.bind_eq_bind, Option.bind_eq_some_iff, Option.pure_def,
      Option.some.injEq, Prod.mk.injEq, Prod.exists]
    constructor
    · rintro ⟨dev, c₁, h₁, i, c₂, h₂, rfl, rfl⟩
      exact ⟨some (dev, i), c₂, ⟨dev, c₁, h₁, i, c₂, h₂, rfl, rfl⟩, rfl, rfl⟩
    · rintro ⟨r, c, ⟨dev, c₁, h₁, i, c₂, h₂, rfl, rfl⟩, rfl, rfl⟩
      exact ⟨dev, c₁, h₁, i, c₂, h₂, rfl, rfl⟩
  · rw [pure_ok]
    constructor
    · rintro ⟨rfl, rfl⟩
      exact ⟨none, s.input, rfl, rfl, rfl⟩
    · rintro ⟨r, c, h, rfl, rfl⟩
      cases h
      exact ⟨rfl, rfl⟩

theorem readMapping_bind_ok {β : Type} {f : InodeSpecial → StgM β} {b : β} (hs : s.isOpen) :
    (readMapping E stgFlags side sp >>= f) s = (.ok b, s') ↔
      ∃ r c, rawMapping stgFlags side s.input = some (r, c) ∧
        f (sp.withRaw E.storeMap side r) (s.after c) = (.ok b, s') := by
  rw [bind_ok]
  simp only [readMapping_ok hs]
  constructor
  · rintro ⟨_, _, ⟨r, c, hr, rfl, rfl⟩, hf⟩
    exact ⟨r, c, hr, hf⟩
  · rintro ⟨r, c, hr, hf⟩
    exact ⟨_, _, ⟨r, c, hr, rfl, rfl⟩, hf⟩

theorem InodeSpecial.withRaw_name (sp : InodeSpecial) (storeMap : Side → Bool) (side : Side)
    (r : Option (Word × Word)) : (sp.withRaw storeMap side r).name = sp.name := by
  rcases r with _ | ⟨dev, ino⟩
  · rfl
  · rw [InodeSpecial.withRaw]
    split
    · cases side <;> rfl
    · rfl

theorem toNat_toInt {len : Word} (h : 0 < len.toInt) : len.toInt.toNat = len.toNat := by
  have := BitVec.toInt_eq_toNat_cond len
  split at this <;> omega

theorem readName_ok {β : Type} {b : β} {len : Word} {mem : Bool} {code : ℤ} {m : StgM β}
    (f : Bytes → StgM β) (hm : m = f []) (hs : s.isOpen) :
    (if 0 < len.toInt then do
        check mem code
        let name ← readBytes len.toNat
        f name
      else m) s = (.ok b, s') ↔
      ∃ name c, takeBytes len.toInt.toNat s.input = some (name, c) ∧ (0 < len.toInt → mem) ∧
        f name (s.after c) = (.ok b, s') := by
  by_cases hlen : 0 < len.toInt
  · rw [if_pos hlen, check_bind_ok, readBytes_bind_ok hs, toNat_toInt hlen]
    constructor
    · rintro ⟨hmem, name, c, hc, hf⟩
      exact ⟨name, c, hc, fun _ => hmem, hf⟩
    · rintro ⟨name, c, hc, hmem, hf⟩
      exact ⟨hmem hlen, name, c, hc, hf⟩
  · have hzero : len.toInt.toNat = 0 := by omega
    rw [if_neg hlen, hzero, takeBytes_zero, hm]
    constructor
    · intro hf
      exact ⟨[], s.input, rfl, fun h => absurd h hlen, hf⟩
    · rintro ⟨name, c, hc, -, hf⟩
      cases hc
      exact hf

theorem stg1ReadInodeSpec_ok (hs : s.isOpen) (hname : sp.name = []) :
    stg1ReadInodeSpec E ino sp stgFlags s = (.ok sp', s') ↔
      ∃ r c, rawSpec stgFlags s.input = some (r, c) ∧
        (0 < r.len.toInt → E.memory.inodeName ino) ∧ sp' = r.special E.storeMap sp ∧
        s' = s.after c := by
  have htail : ∀ (sp₁ : InodeSpecial) (flags len : Word) (s₁ : Stg), sp₁.name = [] → s₁.isOpen →
      ((if 0 < len.toInt then do
          check (E.memory.inodeName ino) enomem
          let name ← readBytes len.toNat
          return { sp₁ with flags := flags, len := len, name := name }
        else return { sp₁ with flags := flags, len := len } :
            StgM InodeSpecial) s₁ = (.ok sp', s') ↔
        ∃ name c, takeBytes len.toInt.toNat s₁.input = some (name, c) ∧
          (0 < len.toInt → E.memory.inodeName ino) ∧
          { sp₁ with flags := flags, len := len, name := name } = sp' ∧ s₁.after c = s') := by
    intro sp₁ flags len s₁ hsp₁ hs₁
    refine (readName_ok (fun name => pure { sp₁ with flags := flags, len := len, name := name })
      (by rw [← hsp₁]) hs₁).trans ?_
    simp only [pure_ok]
  rw [stg1ReadInodeSpec, readLong_bind_ok hs]
  simp only [readMapping_bind_ok, readInteger_bind_ok, hs, Stg.isOpen_after, Stg.input_after,
    Stg.after_after]
  constructor
  · rintro ⟨parent, c₁, h₁, base, c₂, h₂, stg, c₃, h₃, flags, c₄, h₄, len, c₅, h₅, h⟩
    obtain ⟨name, c, hn, hm, rfl, rfl⟩ :=
      (htail _ flags len (s.after c₅) (by simp [InodeSpecial.withRaw_name, hname]) hs).mp h
    refine ⟨⟨parent, base, stg, flags, len, name⟩, c, ?_, hm, rfl, rfl⟩
    simp only [Stg.input_after] at hn
    simp [rawSpec, h₁, h₂, h₃, h₄, h₅, hn]
  · rintro ⟨r, c, hr, hm, rfl, rfl⟩
    simp only [rawSpec, Option.bind_eq_bind, Option.bind_eq_some_iff, Option.pure_def,
      Option.some.injEq, Prod.mk.injEq, Prod.exists] at hr
    obtain ⟨parent, c₁, h₁, base, c₂, h₂, stg, c₃, h₃, flags, c₄, h₄, len, c₅, h₅, name, c, hn, rfl,
      rfl⟩ := hr
    exact ⟨parent, c₁, h₁, base, c₂, h₂, stg, c₃, h₃, flags, c₄, h₄, len, c₅, h₅,
      (htail _ flags len (s.after c₅) (by simp [InodeSpecial.withRaw_name, hname]) hs).mpr
        ⟨name, c, hn, hm, rfl, rfl⟩⟩

/-- The storage when `c` is left of its file, with a list of inodes. -/
def Stg.holding (s : Stg) (c : Bytes) (l : List StgInode) : Stg :=
  { s.after c with inodes := some l }

theorem Stg.holding_self (hl : s.inodes = some l) : s.holding s.input l = s := by
  rw [Stg.holding, ← hl]
  rfl

theorem ovlfsInoAddDirent_ok {name : Bytes} {entIno flags : Word} (hl : s.inodes = some l) :
    ovlfsInoAddDirent E ino k name entIno flags s = (.ok (), s') ↔
      ∃ l', RawEntry.put ino l ⟨name, entIno, flags⟩ = some l' ∧
        (E.memory.direntList ino ∧ E.memory.dirent ino k) ∧ s' = s.holding s.input l' := by
  unfold ovlfsInoAddDirent RawEntry.put
  rw [hl, Option.getD_some]
  dsimp only
  by_cases hname : name = []
  · simp [hname]
  · rw [if_neg hname, if_neg hname]
    rcases checkDirent ino name entIno flags l with e | ⟨flags', l₁⟩
    · simp
    · dsimp only
      split
      case isTrue hm =>
        constructor
        · rintro h
          exact ⟨_, rfl, hm, (Prod.mk.inj h).2.symm⟩
        · rintro ⟨l', h, -, rfl⟩
          cases h
          rfl
      case isFalse hm =>
        constructor
        · nofun
        · rintro ⟨-, -, hm', -⟩
          exact absurd hm' hm

theorem readDirent_ok (hs : s.isOpen) (hl : s.inodes = some l) :
    readDirent E ino k s = (.ok (), s') ↔
      ∃ e c l', rawEntry s.input = some (e, c) ∧ E.memory.fitsEntry ino k e ∧
        e.put ino l = some l' ∧ s' = s.holding c l' := by
  rw [readDirent, readInteger_bind_ok hs]
  constructor
  · rintro ⟨len, c₁, h₁, h⟩
    obtain ⟨name, c₂, h₂, hm, h⟩ := (readName_ok (s := s.after c₁) _ rfl hs).mp h
    obtain ⟨i, c₃, h₃, h⟩ := (readInteger_bind_ok (s := (s.after c₁).after c₂) hs).mp h
    obtain ⟨flags, c₄, h₄, h⟩ :=
      (readInteger_bind_ok (s := ((s.after c₁).after c₂).after c₃) hs).mp h
    obtain ⟨l', hput, hfit, rfl⟩ := (ovlfsInoAddDirent_ok (s := s.after c₄) (l := l) hl).mp h
    simp only [Stg.input_after] at h₂ h₃ h₄
    -- an entry that is put has a name, which was read to memory
    have hlen : 0 < len.toInt := by
      by_contra hlen
      have hzero : len.toInt.toNat = 0 := by omega
      rw [hzero, takeBytes_zero] at h₂
      cases h₂
      cases hput
    refine ⟨⟨name, i, flags⟩, c₄, l', ?_, ⟨hm hlen, hfit⟩, hput, rfl⟩
    simp [rawEntry, h₁, h₂, h₃, h₄]
  · rintro ⟨e, c, l', he, ⟨hm, hfit⟩, hput, rfl⟩
    simp only [rawEntry, Option.bind_eq_bind, Option.bind_eq_some_iff, Option.pure_def,
      Option.some.injEq, Prod.mk.injEq, Prod.exists] at he
    obtain ⟨len, c₁, h₁, name, c₂, h₂, i, c₃, h₃, flags, c₄, h₄, rfl, rfl⟩ := he
    refine ⟨len, c₁, h₁, (readName_ok (s := s.after c₁) _ rfl hs).mpr ⟨name, c₂, h₂, fun _ => hm,
      ?_⟩⟩
    refine (readInteger_bind_ok (s := (s.after c₁).after c₂) hs).mpr ⟨i, c₃, h₃, ?_⟩
    refine (readInteger_bind_ok (s := ((s.after c₁).after c₂).after c₃) hs).mpr ⟨flags, c₄, h₄, ?_⟩
    exact (ovlfsInoAddDirent_ok (s := s.after c₄) (l := l) hl).mpr ⟨l', hput, hfit, rfl⟩

theorem readDirents_ok :
    ∀ (n k : ℕ) (s s' : Stg) (l : List StgInode), s.isOpen → s.inodes = some l →
    (readDirents E ino k n s = (.ok (), s') ↔
      ∃ es c l', many rawEntry n s.input = some (es, c) ∧ FitsFrom (E.memory.fitsEntry ino) k es ∧
        es.foldlM (RawEntry.put ino) l = some l' ∧ s' = s.holding c l')
  | 0, k, s, s', l, hs, hl => by
    rw [readDirents, pure_ok]
    constructor
    · rintro ⟨-, rfl⟩
      exact ⟨[], s.input, l, rfl, trivial, rfl, (Stg.holding_self hl).symm⟩
    · rintro ⟨es, c, l', h, -, hf, rfl⟩
      obtain ⟨rfl, rfl⟩ := many_zero_eq.mp h
      cases hf
      exact ⟨rfl, (Stg.holding_self hl).symm⟩
  | n + 1, k, s, s', l, hs, hl => by
    rw [readDirents, bind_ok]
    constructor
    · rintro ⟨⟨⟩, s₁, h₁, h⟩
      obtain ⟨e, c₁, l₁, he, hfit, hput, rfl⟩ := (readDirent_ok hs hl).mp h₁
      obtain ⟨es, c, l', hes, hfits, hf, rfl⟩ :=
        (readDirents_ok n (k + 1) (s.holding c₁ l₁) s' l₁ hs rfl).mp h
      refine ⟨e :: es, c, l', many_succ_eq.mpr ⟨e, c₁, es, he, hes, rfl⟩, ⟨hfit, hfits⟩, ?_, rfl⟩
      simp [hput, hf]
    · rintro ⟨es, c, l', h, hfits, hf, rfl⟩
      obtain ⟨e, c₁, es, he, hes, rfl⟩ := many_succ_eq.mp h
      rw [foldlM_cons] at hf
      obtain ⟨l₁, hput, hf⟩ := Option.bind_eq_some_iff.mp hf
      exact ⟨(), s.holding c₁ l₁, (readDirent_ok hs hl).mpr ⟨e, c₁, l₁, he, hfits.1, hput, rfl⟩,
        (readDirents_ok n (k + 1) (s.holding c₁ l₁) _ l₁ hs rfl).mpr
          ⟨es, c, l', hes, hfits.2, hf, rfl⟩⟩

theorem modify_last {i : StgInode} {f : StgInode → StgInode} :
    (l ++ [i]).modify l.length f = l ++ [f i] :=
  modifyTailIdx_add _ 0 l [i]

theorem updInode_bind {β : Type} {i : StgInode} {g : StgInode → StgInode} {f : Unit → StgM β}
    (hl : s.inodes = some (l ++ [i])) :
    (updInode (l.length + 1) g >>= f) s = f () (s.holding s.input (l ++ [g i])) := by
  rw [run_bind, updInode, hl, Option.map_some, Nat.add_sub_cancel, modify_last]
  rfl

theorem stg1ReadInodeDet_ok {mode : BitVec 16} (hs : s.isOpen) (hl : s.inodes = some l) :
    stg1ReadInodeDet E ino mode s = (.ok (), s') ↔
      ∃ d c l', rawDetail mode s.input = some (d, c) ∧ E.memory.fitsDetail ino d ∧
        d.put ino l = some l' ∧ s' = s.holding c l' := by
  unfold stg1ReadInodeDet rawDetail
  split
  · rw [readInteger_bind_ok hs]
    constructor
    · rintro ⟨w, c, hw, h⟩
      refine ⟨.value w, c, _, ?_, trivial, rfl, ?_⟩
      · simp [hw]
      · rw [← (Prod.mk.inj h).2, Stg.holding, Stg.inodes_after, hl]
        rfl
    · rintro ⟨d, c, l', hd, -, hput, rfl⟩
      simp only [Option.bind_eq_bind, Option.bind_eq_some_iff, Option.pure_def, Option.some.injEq,
        Prod.mk.injEq, Prod.exists] at hd
      obtain ⟨w, c, hw, rfl, rfl⟩ := hd
      cases hput
      refine ⟨w, c, hw, ?_⟩
      rw [updInode, Stg.inodes_after, hl]
      rfl
  · split
    · rw [readInteger_bind_ok hs]
      constructor
      · rintro ⟨n, c₁, hn, h⟩
        obtain ⟨es, c, l', hes, hfits, hf, rfl⟩ := (readDirents_ok _ 0 (s.after c₁) s' l hs hl).mp h
        refine ⟨.entries es, c, l', ?_, hfits, hf, rfl⟩
        rw [Stg.input_after] at hes
        simp [hn, hes]
      · rintro ⟨d, c, l', hd, hfits, hput, rfl⟩
        simp only [Option.bind_eq_bind, Option.bind_eq_some_iff, Option.pure_def, Option.some.injEq,
          Prod.mk.injEq, Prod.exists] at hd
        obtain ⟨n, c₁, hn, es, c, hes, rfl, rfl⟩ := hd
        exact ⟨n, c₁, hn, (readDirents_ok _ 0 (s.after c₁) _ l hs hl).mpr
          ⟨es, c, l', hes, hfits, hput, rfl⟩⟩
    · rw [pure_ok]
      constructor
      · rintro ⟨-, rfl⟩
        exact ⟨.none, s.input, l, rfl, trivial, rfl, (Stg.holding_self hl).symm⟩
      · rintro ⟨d, c, l', hd, -, hput, rfl⟩
        cases hd
        cases hput
        exact ⟨rfl, (Stg.holding_self hl).symm⟩

/-! The head of an inode is read word by word. -/

def readWords : ℕ → StgM (List Word)
  | 0 => return []
  | n + 1 => do
    let w ← readInteger
    let ws ← readWords n
    return w :: ws

theorem readWords_zero_bind {β : Type} (f : List Word → StgM β) : readWords 0 >>= f = f [] := rfl

theorem readWords_succ_bind {β : Type} (n : ℕ) (f : List Word → StgM β) :
    readWords (n + 1) >>= f = readInteger >>= fun w => readWords n >>= fun ws => f (w :: ws) := by
  funext s
  simp only [readWords, run_bind, run_pure]
  rcases readInteger s with ⟨e | w, s₁⟩
  · rfl
  · dsimp only
    rcases readWords n s₁ with ⟨e | ws, s₂⟩
    · rfl
    · rfl

theorem readWords_bind_ok {β : Type} {b : β} :
    ∀ (n : ℕ) (f : List Word → StgM β) (s : Stg), s.isOpen →
    ((readWords n >>= f) s = (.ok b, s') ↔
      ∃ ws c, many word n s.input = some (ws, c) ∧ f ws (s.after c) = (.ok b, s'))
  | 0, f, s, hs => by
    rw [readWords_zero_bind]
    constructor
    · intro h
      exact ⟨[], s.input, rfl, h⟩
    · rintro ⟨ws, c, h, hf⟩
      obtain ⟨rfl, rfl⟩ := many_zero_eq.mp h
      exact hf
  | n + 1, f, s, hs => by
    rw [readWords_succ_bind, readInteger_bind_ok hs]
    constructor
    · rintro ⟨w, c₁, hw, h⟩
      obtain ⟨ws, c, hws, hf⟩ := (readWords_bind_ok n _ (s.after c₁) hs).mp h
      exact ⟨w :: ws, c, many_succ_eq.mpr ⟨w, c₁, ws, hw, hws, rfl⟩, hf⟩
    · rintro ⟨_, c, h, hf⟩
      obtain ⟨w, c₁, ws, hw, hws, rfl⟩ := many_succ_eq.mp h
      exact ⟨w, c₁, hw, (readWords_bind_ok n _ (s.after c₁) hs).mpr ⟨ws, c, hws, hf⟩⟩

/-- What `stg1_read_inode` does after the head of an inode. -/
def readRest (E : Env) (ino : ℕ) (stgFlags : Word) (head : List Word) : StgM Unit := do
  let s ← stg1ReadInodeSpec E ino (newInode ino).s stgFlags
  updInode ino fun i => { i with
    uid := head.getD 2 0
    gid := head.getD 3 0
    mode := headMode head
    size := head.getD 5 0
    atime := head.getD 6 0
    mtime := head.getD 7 0
    ctime := head.getD 8 0
    nlink := head.getD 9 0
    blksize := head.getD 10 0
    blocks := head.getD 11 0
    version := head.getD 12 0
    nrpages := head.getD 13 0
    s
    attValid := headMode head ≠ 0 }
  stg1ReadInodeDet E ino (headMode head)

theorem stg1ReadInode_eq :
    stg1ReadInode E ino stgFlags = readWords 14 >>= readRest E ino stgFlags := by
  simp only [readWords_succ_bind, readWords_zero_bind]
  rfl

theorem stg1ReadInode_ok (hs : s.isOpen) (hl : s.inodes = some (l ++ [newInode (l.length + 1)])) :
    stg1ReadInode E (l.length + 1) stgFlags s = (.ok (), s') ↔
      ∃ r c l', rawInode stgFlags s.input = some (r, c) ∧
        (0 < r.spec.len.toInt → E.memory.inodeName (l.length + 1)) ∧
        E.memory.fitsDetail (l.length + 1) r.detail ∧ r.put E.storeMap l = some l' ∧
        s' = s.holding c l' := by
  rw [stg1ReadInode_eq, readWords_bind_ok _ _ _ hs]
  constructor
  · rintro ⟨head, c₁, h₁, h⟩
    obtain ⟨sp, _, hsp, h⟩ := bind_ok.mp h
    obtain ⟨r, c₂, h₂, hm, rfl, rfl⟩ := (stg1ReadInodeSpec_ok (s := s.after c₁) hs rfl).mp hsp
    rw [updInode_bind (s := (s.after c₁).after c₂) hl] at h
    obtain ⟨d, c, l', h₃, hfit, hput, rfl⟩ := (stg1ReadInodeDet_ok
      (s := s.holding c₂
        (l ++ [RawInode.inode ⟨head, r, .none⟩ E.storeMap (l.length + 1)])) hs rfl).mp h
    refine ⟨⟨head, r, d⟩, c, l', ?_, hm, hfit, hput, rfl⟩
    have h₂' : rawSpec stgFlags c₁ = some (r, c₂) := h₂
    have h₃' : rawDetail (headMode head) c₂ = some (d, c) := h₃
    simp [rawInode, h₁, h₂', h₃']
  · rintro ⟨r, c, l', hr, hm, hfit, hput, rfl⟩
    simp only [rawInode, Option.bind_eq_bind, Option.bind_eq_some_iff, Option.pure_def,
      Option.some.injEq, Prod.mk.injEq, Prod.exists] at hr
    obtain ⟨head, c₁, h₁, r, c₂, h₂, d, c, h₃, rfl, rfl⟩ := hr
    refine ⟨head, c₁, h₁, bind_ok.mpr ⟨_, _,
      (stg1ReadInodeSpec_ok (s := s.after c₁) hs rfl).mpr ⟨r, c₂, h₂, hm, rfl, rfl⟩, ?_⟩⟩
    rw [updInode_bind (s := (s.after c₁).after c₂) hl]
    exact (stg1ReadInodeDet_ok
      (s := s.holding c₂
        (l ++ [RawInode.inode ⟨head, r, .none⟩ E.storeMap (l.length + 1)])) hs rfl).mpr
        ⟨d, c, l', h₃, hfit, hput, rfl⟩

theorem ovlfsAddInode_ok (hl : s.inodes.getD [] = l) (hm : s.inodes.isSome → E.memory.inodeList) :
    ovlfsAddInode E s = (.ok ino, s') ↔ E.memory.inodeList ∧ E.memory.inode (l.length + 1) ∧
      ino = l.length + 1 ∧ s' = s.holding s.input (l ++ [newInode (l.length + 1)]) := by
  have hstep : E.memory.inodeList → ovlfsAddInode E s =
      if E.memory.inode (l.length + 1) then
        (.ok (l.length + 1), s.holding s.input (l ++ [newInode (l.length + 1)]))
      else (.error (-enomem), s.holding s.input l) := by
    intro hlist
    unfold ovlfsAddInode
    subst hl
    rw [hlist]
    rcases s.inodes with _ | l
    · rfl
    · rfl
  cases hlist : E.memory.inodeList with
  | true =>
    rw [hstep hlist]
    split
    case isTrue hino => simp [hino, eq_comm]
    case isFalse hino => simp [hino]
  | false =>
    rw [hlist] at hm
    have hnone : s.inodes = none := by simpa using hm
    simp [ovlfsAddInode, hnone, hlist]

theorem readInode_bind_ok {β : Type} {b : β} {f : Unit → StgM β} (hs : s.isOpen)
    (hl : s.inodes.getD [] = l) (hm : s.inodes.isSome → E.memory.inodeList) :
    (ovlfsAddInode E >>= fun ino => stg1ReadInode E ino stgFlags >>= f) s = (.ok b, s') ↔
      ∃ r c l', rawInode stgFlags s.input = some (r, c) ∧ E.memory.fitsInode l.length r ∧
        r.put E.storeMap l = some l' ∧ f () (s.holding c l') = (.ok b, s') := by
  rw [bind_ok]
  constructor
  · rintro ⟨ino, s₁, hadd, h⟩
    obtain ⟨hlist, hino, rfl, rfl⟩ := (ovlfsAddInode_ok hl hm).mp hadd
    obtain ⟨⟨⟩, s₂, hread, h⟩ := bind_ok.mp h
    obtain ⟨r, c, l', hr, hname, hfit, hput, rfl⟩ :=
      (stg1ReadInode_ok (s := s.holding s.input (l ++ [newInode (l.length + 1)])) hs rfl).mp hread
    exact ⟨r, c, l', hr, ⟨hlist, hino, hname, hfit⟩, hput, h⟩
  · rintro ⟨r, c, l', hr, ⟨hlist, hino, hname, hfit⟩, hput, h⟩
    refine ⟨_, _, (ovlfsAddInode_ok hl hm).mpr ⟨hlist, hino, rfl, rfl⟩, bind_ok.mpr ⟨(), _, ?_, h⟩⟩
    exact (stg1ReadInode_ok (s := s.holding s.input (l ++ [newInode (l.length + 1)])) hs rfl).mpr
      ⟨r, c, l', hr, hname, hfit, hput, rfl⟩

/-! An inode that is put to the list is one more. -/

variable {l' : List StgInode}

theorem RawEntry.put_length {e : RawEntry} (h : e.put ino l = some l') :
    l'.length = l.length := by
  unfold RawEntry.put at h
  split at h
  · cases h
  · rcases hc : checkDirent ino e.name e.ino e.flags l with _ | ⟨flags, l₁⟩
    · rw [hc] at h
      cases h
    · rw [hc] at h
      cases h
      rw [length_modify]
      unfold checkDirent at hc
      dsimp only at hc
      split at hc
      · cases hc
        rfl
      · split at hc
        · cases hc
          unfold setInoFlags
          split
          · rw [length_modify]
          · rw [length_modify, length_modify]
        · cases hc

theorem RawDetail.put_length {d : RawDetail} (h : d.put ino l = some l') :
    l'.length = l.length := by
  cases d with
  | none =>
    cases h
    rfl
  | value w =>
    cases h
    rw [length_modify]
  | entries es =>
    change es.foldlM (RawEntry.put ino) l = some l' at h
    induction es generalizing l with
    | nil =>
      cases h
      rfl
    | cons e es ih =>
      rw [foldlM_cons] at h
      obtain ⟨l₁, hput, h⟩ := Option.bind_eq_some_iff.mp h
      exact (ih h).trans (RawEntry.put_length hput)

theorem RawInode.put_length {r : RawInode} {storeMap : Side → Bool}
    (h : r.put storeMap l = some l') :
    l'.length = l.length + 1 := by
  rw [RawDetail.put_length h, length_append, length_singleton]

theorem readInodes_ok :
    ∀ (n : ℕ) (s s' : Stg) (l : List StgInode), s.isOpen → s.inodes.getD [] = l →
    (s.inodes.isSome → E.memory.inodeList) → (readInodes E stgFlags n s = (.ok (), s') ↔
      ∃ rs c l', many (rawInode stgFlags) n s.input = some (rs, c) ∧
        FitsFrom E.memory.fitsInode l.length rs ∧ rs.foldlM (RawInode.put E.storeMap) l = some l' ∧
        s' = { s.after c with inodes := if n = 0 then s.inodes else some l' })
  | 0, s, s', l, hs, hl, hm => by
    rw [readInodes, pure_ok]
    constructor
    · rintro ⟨-, rfl⟩
      exact ⟨[], s.input, l, rfl, trivial, rfl, rfl⟩
    · rintro ⟨rs, c, l', h, -, hf, rfl⟩
      obtain ⟨rfl, rfl⟩ := many_zero_eq.mp h
      exact ⟨rfl, rfl⟩
  | n + 1, s, s', l, hs, hl, hm => by
    -- after the last inode the list is the one that is left
    have hlast : ∀ rs c₁ c l₁ l', many (rawInode stgFlags) n c₁ = some (rs, c) →
        rs.foldlM (RawInode.put E.storeMap) l₁ = some l' →
          (if n = 0 then some l₁ else some l') = some l' := by
      intro rs c₁ c l₁ l' hrs hf
      cases n with
      | zero =>
        obtain ⟨rfl, rfl⟩ := many_zero_eq.mp hrs
        exact hf
      | succ n => rfl
    rw [readInodes, readInode_bind_ok hs hl hm]
    constructor
    · rintro ⟨r, c₁, l₁, hr, hfit, hput, h⟩
      obtain ⟨rs, c, l', hrs, hfits, hf, rfl⟩ :=
        (readInodes_ok n (s.holding c₁ l₁) s' l₁ hs rfl fun _ => hfit.1).mp h
      rw [RawInode.put_length hput] at hfits
      refine ⟨r :: rs, c, l', many_succ_eq.mpr ⟨r, c₁, rs, hr, hrs, rfl⟩, ⟨hfit, hfits⟩, ?_, ?_⟩
      · rw [foldlM_cons, hput]
        exact hf
      · rw [Stg.holding, hlast rs c₁ c l₁ l' hrs hf]
        rfl
    · rintro ⟨_, c, l', h, hfits, hf, rfl⟩
      obtain ⟨r, c₁, rs, hr, hrs, rfl⟩ := many_succ_eq.mp h
      rw [foldlM_cons] at hf
      obtain ⟨l₁, hput, hf⟩ := Option.bind_eq_some_iff.mp hf
      refine ⟨r, c₁, l₁, hr, hfits.1, hput,
        (readInodes_ok n (s.holding c₁ l₁) _ l₁ hs rfl fun _ => hfits.1.1).mpr ⟨rs, c, l', hrs, ?_,
          hf, ?_⟩⟩
      · rw [RawInode.put_length hput]
        exact hfits.2
      · rw [Stg.holding, hlast rs c₁ c l₁ l' hrs hf]
        rfl

/-! ## Mappings -/

/-- The storage when `c` is left of its file, with a list of mappings. -/
def Stg.mapping (s : Stg) (c : Bytes) (side : Side) (t : Option (List InoMapping)) : Stg :=
  { s.after c with toOvl := Function.update s.toOvl side t }

theorem Stg.mapping_self {t : Option (List InoMapping)} (ht : s.toOvl side = t) :
    s.mapping s.input side t = s := by
  rw [Stg.mapping, ← ht, update_eq_self]
  rfl

theorem Stg.mapping_mapping (c c' : Bytes) (t t' : Option (List InoMapping)) :
    (s.mapping c side t).mapping c' side t' = s.mapping c' side t' := by
  simp [Stg.mapping, Stg.after]

theorem readMaps_ok : ∀ (n k : ℕ) (s s' : Stg) (ms : List InoMapping), s.isOpen →
    s.toOvl side = some ms → (readMaps E side k n s = (.ok (), s') ↔
      ∃ maps c, many rawMap n s.input = some (maps, c) ∧ FitsFrom (E.memory.fitsMap side) k maps ∧
        s' = s.mapping c side (some (ms ++ maps)))
  | 0, k, s, s', ms, hs, hms => by
    rw [readMaps, pure_ok]
    constructor
    · rintro ⟨-, rfl⟩
      exact ⟨[], s.input, rfl, trivial, by rw [append_nil, Stg.mapping_self hms]⟩
    · rintro ⟨maps, c, h, -, rfl⟩
      obtain ⟨rfl, rfl⟩ := many_zero_eq.mp h
      exact ⟨rfl, by rw [append_nil, Stg.mapping_self hms]⟩
  | n + 1, k, s, s', ms, hs, hms => by
    have hmap :
        ∀ {c map}, (s.mapping c side (some (ms ++ [map]))).toOvl side = some (ms ++ [map]) :=
      update_self ..
    have hinsert : ∀ {c map}, insertMapping E side k map (s.after c) =
        if E.memory.map side k then (.ok (), s.mapping c side (some (ms ++ [map])))
        else (.error (-enomem), s.after c) := by
      intro c map
      rw [insertMapping, Stg.toOvl_after, hms]
      rfl
    rw [readMaps, readInteger_bind_ok hs]
    constructor
    · rintro ⟨dev, c₁, h₁, h⟩
      obtain ⟨i, c₂, h₂, h⟩ := (readInteger_bind_ok (s := s.after c₁) hs).mp h
      obtain ⟨o, c₃, h₃, h⟩ := (readInteger_bind_ok (s := s.after c₂) hs).mp h
      obtain ⟨⟨⟩, s₁, hins, h⟩ := bind_ok.mp h
      change insertMapping E side k ⟨dev, i, o⟩ (s.after c₃) = _ at hins
      rw [hinsert] at hins
      split at hins
      case isTrue hfit =>
        cases hins
        obtain ⟨maps, c, hmaps, hfits, rfl⟩ :=
          (readMaps_ok n (k + 1) (s.mapping c₃ side (some (ms ++ [⟨dev, i, o⟩]))) s' _ hs hmap).mp h
        refine ⟨⟨dev, i, o⟩ :: maps, c, many_succ_eq.mpr ⟨⟨dev, i, o⟩, c₃, maps, ?_, hmaps, rfl⟩,
          ⟨hfit, hfits⟩, ?_⟩
        · rw [Stg.input_after] at h₂ h₃
          simp [rawMap, h₁, h₂, h₃]
        · rw [Stg.mapping_mapping, append_assoc]
          rfl
      case isFalse => cases hins
    · rintro ⟨_, c, h, hfits, rfl⟩
      obtain ⟨map, c₃, maps, hraw, hmaps, rfl⟩ := many_succ_eq.mp h
      simp only [rawMap, Option.bind_eq_bind, Option.bind_eq_some_iff, Option.pure_def,
        Option.some.injEq, Prod.mk.injEq, Prod.exists] at hraw
      obtain ⟨dev, c₁, h₁, i, c₂, h₂, o, c₃, h₃, rfl, rfl⟩ := hraw
      refine ⟨dev, c₁, h₁, (readInteger_bind_ok (s := s.after c₁) hs).mpr ⟨i, c₂, h₂,
        (readInteger_bind_ok (s := s.after c₂) hs).mpr ⟨o, c₃, h₃, bind_ok.mpr
          ⟨(), s.mapping c₃ side (some (ms ++ [⟨dev, i, o⟩])), ?_, ?_⟩⟩⟩⟩
      · exact hinsert.trans (if_pos hfits.1)
      · refine
          (readMaps_ok n (k + 1) (s.mapping c₃ side (some (ms ++ [⟨dev, i, o⟩]))) _ _ hs hmap).mpr
          ⟨maps, c, hmaps, hfits.2, ?_⟩
        rw [Stg.mapping_mapping, append_assoc]
        rfl

theorem ovlfsReadMappings_ok (hs : s.isOpen) (hnone : s.toOvl side = none) :
    ovlfsReadMappings E side s = (.ok (), s') ↔
      ∃ c t, TablePassed E side s.input c t ∧ s' = s.mapping c side t := by
  have hskip : ∀ c, s.after c = s.mapping c side none := by
    intro c
    rw [Stg.mapping, ← hnone, update_eq_self]
    rfl
  have hcreate : ∀ c, createMapList E side (s.after c) =
      if E.memory.mapList side then (.ok (), s.mapping c side (some []))
      else (.error (-enomem), s.after c) := by
    intro c
    rw [createMapList, Stg.toOvl_after, hnone]
    rfl
  have hempty : ∀ c, (s.mapping c side (some [])).toOvl side = some [] := fun c =>
    update_self ..
  rw [ovlfsReadMappings, readInteger_bind_ok hs]
  constructor
  · rintro ⟨n, c₀, hn, h⟩
    split at h
    case isTrue hpos =>
      split at h
      case isTrue hstore =>
        cases h
        exact ⟨_, none, ⟨n, c₀, hn, by rw [if_pos hpos, if_pos hstore]; exact ⟨rfl, rfl⟩⟩, hskip _⟩
      case isFalse hstore =>
        obtain ⟨⟨⟩, s₁, hc, h⟩ := bind_ok.mp h
        rw [hcreate] at hc
        split at hc
        case isTrue hlist =>
          cases hc
          obtain ⟨maps, c, hmaps, hfits, rfl⟩ :=
            (readMaps_ok n.toNat 0 (s.mapping c₀ side (some [])) s' [] hs (hempty c₀)).mp h
          refine ⟨c, some maps, ⟨n, c₀, hn, ?_⟩, by rw [Stg.mapping_mapping, nil_append]⟩
          rw [if_pos hpos, if_neg hstore]
          exact ⟨maps, hmaps, hlist, hfits, rfl⟩
        case isFalse => cases hc
    case isFalse hpos =>
      obtain ⟨-, rfl⟩ := pure_ok.mp h
      exact ⟨c₀, none, ⟨n, c₀, hn, by rw [if_neg hpos]; exact ⟨rfl, rfl⟩⟩, hskip _⟩
  · rintro ⟨c, t, ⟨n, c₀, hn, h⟩, rfl⟩
    refine ⟨n, c₀, hn, ?_⟩
    split at h
    case isTrue hpos =>
      rw [if_pos hpos]
      split at h
      case isTrue hstore =>
        obtain ⟨rfl, rfl⟩ := h
        rw [if_pos hstore, ← hskip]
        rfl
      case isFalse hstore =>
        obtain ⟨maps, hmaps, hlist, hfits, rfl⟩ := h
        rw [if_neg hstore]
        refine bind_ok.mpr ⟨(), s.mapping c₀ side (some []), (hcreate c₀).trans (if_pos hlist), ?_⟩
        refine (readMaps_ok n.toNat 0 (s.mapping c₀ side (some [])) _ [] hs (hempty c₀)).mpr
          ⟨maps, c, hmaps, hfits, ?_⟩
        rw [Stg.mapping_mapping, nil_append]
    case isFalse hpos =>
      obtain ⟨rfl, rfl⟩ := h
      rw [if_neg hpos, pure_ok]
      exact ⟨rfl, hskip _⟩

/-! ## The contents of a file -/

theorem stg1ReadMagic_ok {flags : Word} (hs : s.isOpen) : stg1ReadMagic s = (.ok flags, s') ↔
    ∃ c, rawMagic s.input = some (flags, c) ∧ s' = s.after c := by
  rw [stg1ReadMagic, readBytes_bind_ok hs]
  constructor
  · rintro ⟨buf, c₁, h₁, h⟩
    split at h
    case isTrue h4 =>
      obtain ⟨c, hc, rfl⟩ := (readInteger_ok (s := s.after c₁) hs).mp h
      refine ⟨c, ?_, rfl⟩
      rw [Stg.input_after] at hc
      simp [rawMagic, h₁, h4, hc]
    case isFalse h4 =>
      split at h
      case isTrue h3 =>
        obtain ⟨rfl, rfl⟩ := pure_ok.mp h
        exact ⟨c₁, by simp [rawMagic, h₁, if_neg h4, if_pos h3], rfl⟩
      case isFalse => cases h
  · rintro ⟨c, h, rfl⟩
    simp only [rawMagic, Option.bind_eq_bind, Option.bind_eq_some_iff, Prod.exists] at h
    obtain ⟨buf, c₁, h₁, h⟩ := h
    refine ⟨buf, c₁, h₁, ?_⟩
    split at h
    case isTrue h4 =>
      rw [if_pos h4, readInteger_ok (s := s.after c₁) hs]
      exact ⟨c, h, rfl⟩
    case isFalse h4 =>
      rw [if_neg h4]
      split at h
      case isTrue h3 =>
        cases h
        rw [if_pos h3, pure_ok]
        exact ⟨rfl, rfl⟩
      case isFalse => cases h

theorem readTables_ok (hs : s.isOpen) (ht : ∀ side, s.toOvl side = none) :
    (ovlfsReadMappings E .base >>= fun _ => ovlfsReadMappings E .stg) s = (.ok (), s') ↔
      ∃ c₁ c₂ t t', TablePassed E .base s.input c₁ t ∧ TablePassed E .stg c₁ c₂ t' ∧
        s' = (s.mapping c₁ .base t).mapping c₂ .stg t' := by
  have hne : Side.stg ≠ .base := by decide
  have hstg : ∀ c t, (s.mapping c .base t).toOvl .stg = none := fun c t =>
    (update_of_ne hne t s.toOvl).trans (ht .stg)
  rw [bind_ok]
  constructor
  · rintro ⟨⟨⟩, s₁, h₁, h₂⟩
    obtain ⟨c₁, t, ht₁, rfl⟩ := (ovlfsReadMappings_ok hs (ht .base)).mp h₁
    obtain ⟨c₂, t', ht₂, rfl⟩ :=
      (ovlfsReadMappings_ok (s := s.mapping c₁ .base t) hs (hstg c₁ t)).mp h₂
    exact ⟨c₁, c₂, t, t', ht₁, ht₂, rfl⟩
  · rintro ⟨c₁, c₂, t, t', ht₁, ht₂, rfl⟩
    refine ⟨(), s.mapping c₁ .base t, (ovlfsReadMappings_ok hs (ht .base)).mpr ⟨c₁, t, ht₁, rfl⟩,
      ?_⟩
    exact (ovlfsReadMappings_ok (s := s.mapping c₁ .base t) hs (hstg c₁ t)).mpr ⟨c₂, t', ht₂, rfl⟩

theorem readContents_ok {totIno : Word} {is : Option (List StgInode)} (hs : s.isOpen)
    (hl : s.inodes = none) (ht : ∀ side, s.toOvl side = none) :
    (∃ s', readContents E stgFlags totIno s = (.ok (), s') ∧ s'.inodes = is) ↔
      ∃ rs l, Readable E stgFlags totIno s.input rs l ∧
        is = if totIno.toInt.toNat = 0 then none else some l := by
  constructor
  · rintro ⟨s', h, rfl⟩
    obtain ⟨⟨⟩, s₁, h₁, h₂⟩ := bind_ok.mp h
    obtain ⟨rs, c₁, l, hrs, hfits, hput, hs₁⟩ :=
      (readInodes_ok _ _ _ [] hs (by rw [hl]; rfl) (by simp [hl])).mp h₁
    rw [hl] at hs₁
    have hinput : s₁.input = c₁ := by rw [hs₁]; rfl
    obtain ⟨c₂, c₃, t, t', ht₂, ht₃, rfl⟩ := (readTables_ok (s := s₁) (by rw [hs₁]; exact hs)
      (by rw [hs₁]; exact ht)).mp h₂
    rw [hinput] at ht₂
    refine ⟨rs, l, ⟨hfits, hput, c₁, c₂, c₃, t, t', hrs, ht₂, ht₃⟩, ?_⟩
    rw [hs₁]
    rfl
  · rintro ⟨rs, l, ⟨hfits, hput, c₁, c₂, c₃, t, t', hrs, ht₂, ht₃⟩, rfl⟩
    have h₁ := (readInodes_ok (E := E) _ s _ [] hs (by rw [hl]; rfl) (by simp [hl])).mpr
      ⟨rs, c₁, l, hrs, hfits, hput, by rw [hl]⟩
    refine ⟨_, bind_ok.mpr ⟨(), _, h₁, (readTables_ok ?_ ?_).mpr ⟨c₂, c₃, t, t', ?_, ht₃, rfl⟩⟩,
      rfl⟩
    · exact hs
    · exact ht
    · exact ht₂

end

/-! ## Readers that fail -/

/-- A function that uses nothing that was not read, destroys no list, and fails with another error
than `-ENOENT`. -/
structure Tame {α : Type} (m : StgM α) : Prop where
  unread : ∀ s, (m s).2.unread = s.unread
  freed : ∀ s, (m s).2.freed = s.freed
  error : ∀ s e s', m s = (.error e, s') → e < 0 ∧ e ≠ -enoent

section

variable {α β : Type} {m : StgM α} {f : α → StgM β}

theorem Tame.pure (a : α) : Tame (Pure.pure a : StgM α) := ⟨fun _ => rfl, fun _ => rfl, nofun⟩

theorem Tame.bind (hm : Tame m) (hf : ∀ a, Tame (f a)) : Tame (m >>= f) := by
  refine ⟨fun s => ?_, fun s => ?_, fun s e s' h => ?_⟩
  · have hs := hm.unread s
    rw [run_bind]
    rcases hrun : m s with ⟨e | a, s₁⟩
    · rwa [hrun] at hs
    · rw [hrun] at hs
      exact ((hf a).unread s₁).trans hs
  · have hs := hm.freed s
    rw [run_bind]
    rcases hrun : m s with ⟨e | a, s₁⟩
    · rwa [hrun] at hs
    · rw [hrun] at hs
      exact ((hf a).freed s₁).trans hs
  · rw [run_bind] at h
    rcases hrun : m s with ⟨e₁ | a, s₁⟩
    · rw [hrun] at h
      obtain ⟨he, -⟩ := Prod.mk.inj h
      cases he
      exact hm.error s _ s₁ hrun
    · rw [hrun] at h
      exact (hf a).error s₁ e s' h

theorem Tame.ite {c : Prop} [Decidable c] {m' : StgM α} (hm : Tame m) (hm' : Tame m') :
    Tame (if c then m else m') := by
  split
  · exact hm
  · exact hm'

theorem tame_of (h : ∀ s, (∃ a s₁, m s = (.ok a, s₁) ∧ s₁.unread = s.unread ∧ s₁.freed = s.freed) ∨
    ∃ e s₁, m s = (.error e, s₁) ∧ s₁.unread = s.unread ∧ s₁.freed = s.freed ∧ e < 0 ∧
      e ≠ -enoent) :
    Tame m := by
  refine ⟨fun s => ?_, fun s => ?_, fun s e s' h' => ?_⟩
  · rcases h s with ⟨a, s₁, hs, hu, -⟩ | ⟨e, s₁, hs, hu, -⟩
    · rw [hs]
      exact hu
    · rw [hs]
      exact hu
  · rcases h s with ⟨a, s₁, hs, -, hf⟩ | ⟨e, s₁, hs, -, hf, -⟩
    · rw [hs]
      exact hf
    · rw [hs]
      exact hf
  · rcases h s with ⟨a, s₁, hs, -⟩ | ⟨e₁, s₁, hs, -, -, he⟩
    · rw [hs] at h'
      cases h'
    · rw [hs] at h'
      cases h'
      exact he

theorem tame_fail {code : ℤ} (h : 0 < code) (hne : code ≠ enoent) : Tame (fail code : StgM α) :=
  tame_of fun s => .inr ⟨-code, s, rfl, rfl, rfl, by omega, fun heq => hne (by omega)⟩

theorem tame_check (cond : Bool) {code : ℤ} (h : 0 < code) (hne : code ≠ enoent) :
    Tame (check cond code) :=
  .ite (.pure ()) (tame_fail h hne)

theorem tame_readBytes (n : ℕ) : Tame (readBytes n) := by
  refine tame_of fun s => ?_
  rw [readBytes]
  split
  · exact .inr ⟨_, _, rfl, rfl, rfl, by decide, by decide⟩
  · split
    · exact .inl ⟨_, _, rfl, rfl, rfl⟩
    · exact .inr ⟨_, _, rfl, rfl, rfl, by decide, by decide⟩

theorem tame_readInteger : Tame readInteger := (tame_readBytes 4).bind fun _ => .pure _

theorem tame_readWords : ∀ n, Tame (readWords n)
  | 0 => .pure []
  | n + 1 => tame_readInteger.bind fun _ => (tame_readWords n).bind fun _ => .pure _

theorem tame_updInode (ino : ℕ) (g : StgInode → StgInode) : Tame (updInode ino g) :=
  tame_of fun _ => .inl ⟨_, _, rfl, rfl, rfl⟩

variable (E : Env) (side : Side) (stgFlags : Word) (ino : ℕ)

theorem tame_readMapping (sp : InodeSpecial) : Tame (readMapping E stgFlags side sp) :=
  .ite (tame_readInteger.bind fun _ => tame_readInteger.bind fun _ => .pure _) (.pure _)

theorem tame_stg1ReadInodeSpec (sp : InodeSpecial) :
    Tame (stg1ReadInodeSpec E ino sp stgFlags) := by
  refine tame_readInteger.bind fun _ => (tame_readMapping E _ _ _).bind fun _ =>
    (tame_readMapping E _ _ _).bind fun _ => tame_readInteger.bind fun _ =>
      tame_readInteger.bind fun _ => ?_
  exact .ite ((tame_check _ (by decide) (by decide)).bind fun _ =>
    (tame_readBytes _).bind fun _ => .pure _) (.pure _)

theorem tame_ovlfsInoAddDirent (k : ℕ) (name : Bytes) (entIno flags : Word) :
    Tame (ovlfsInoAddDirent E ino k name entIno flags) := by
  refine tame_of fun s => ?_
  unfold ovlfsInoAddDirent
  split
  · exact .inr ⟨_, _, rfl, rfl, rfl, by decide, by decide⟩
  · rcases hc : checkDirent ino name entIno flags (s.inodes.getD []) with e | ⟨flags', l⟩
    · refine .inr ⟨e, s, rfl, rfl, rfl, ?_⟩
      unfold checkDirent at hc
      dsimp only at hc
      split at hc
      · cases hc
      · split at hc
        · cases hc
        · cases hc
          exact ⟨by decide, by decide⟩
    · dsimp only
      split
      · exact .inl ⟨_, _, rfl, rfl, rfl⟩
      · exact .inr ⟨_, _, rfl, rfl, rfl, by decide, by decide⟩

theorem tame_readDirent (k : ℕ) : Tame (readDirent E ino k) := by
  have hrest : ∀ name, Tame (do
      let entIno ← readInteger
      let flags ← readInteger
      ovlfsInoAddDirent E ino k name entIno flags) := fun name =>
    tame_readInteger.bind fun _ => tame_readInteger.bind fun _ =>
      tame_ovlfsInoAddDirent E ino k name _ _
  refine tame_readInteger.bind fun _ => .ite ?_ (hrest [])
  exact (tame_check _ (by decide) (by decide)).bind fun _ => (tame_readBytes _).bind hrest

theorem tame_readDirents : ∀ n k, Tame (readDirents E ino k n)
  | 0, _ => .pure ()
  | n + 1, k => (tame_readDirent E ino k).bind fun _ => tame_readDirents n (k + 1)

theorem tame_stg1ReadInodeDet (mode : BitVec 16) : Tame (stg1ReadInodeDet E ino mode) :=
  .ite (tame_readInteger.bind fun _ => tame_updInode _ _)
    (.ite (tame_readInteger.bind fun _ => tame_readDirents E ino _ 0) (.pure ()))

theorem tame_stg1ReadInode : Tame (stg1ReadInode E ino stgFlags) := by
  rw [stg1ReadInode_eq]
  exact (tame_readWords 14).bind fun _ => (tame_stg1ReadInodeSpec E stgFlags ino _).bind fun _ =>
    (tame_updInode _ _).bind fun _ => tame_stg1ReadInodeDet E ino _

theorem tame_ovlfsAddInode : Tame (ovlfsAddInode E) := by
  refine tame_of fun s => ?_
  unfold ovlfsAddInode
  split
  · exact .inr ⟨_, _, rfl, rfl, rfl, by decide, by decide⟩
  · dsimp only
    split
    · exact .inl ⟨_, _, rfl, rfl, rfl⟩
    · exact .inr ⟨_, _, rfl, rfl, rfl, by decide, by decide⟩

theorem tame_readInodes : ∀ n, Tame (readInodes E stgFlags n)
  | 0 => .pure ()
  | n + 1 => (tame_ovlfsAddInode E).bind fun ino =>
      (tame_stg1ReadInode E stgFlags ino).bind fun _ => tame_readInodes n

theorem tame_insertMapping (k : ℕ) (map : InoMapping) : Tame (insertMapping E side k map) := by
  refine tame_of fun s => ?_
  unfold insertMapping
  split
  · exact .inl ⟨_, _, rfl, rfl, rfl⟩
  · exact .inr ⟨_, _, rfl, rfl, rfl, by decide, by decide⟩

theorem tame_readMaps : ∀ n k, Tame (readMaps E side k n)
  | 0, _ => .pure ()
  | n + 1, k => tame_readInteger.bind fun _ => tame_readInteger.bind fun _ =>
      tame_readInteger.bind fun _ => (tame_insertMapping E side k _).bind fun _ =>
        tame_readMaps n (k + 1)

theorem tame_createMapList : Tame (createMapList E side) := by
  refine tame_of fun s => ?_
  unfold createMapList
  split
  · exact .inl ⟨_, _, rfl, rfl, rfl⟩
  · split
    · exact .inl ⟨_, _, rfl, rfl, rfl⟩
    · exact .inr ⟨_, _, rfl, rfl, rfl, by decide, by decide⟩

theorem tame_seekForward (n : ℕ) : Tame (seekForward n) :=
  tame_of fun _ => .inl ⟨_, _, rfl, rfl, rfl⟩

theorem tame_ovlfsReadMappings : Tame (ovlfsReadMappings E side) :=
  tame_readInteger.bind fun _ => .ite
    (.ite (tame_seekForward _) ((tame_createMapList E side).bind fun _ => tame_readMaps E side _ 0))
    (.pure ())

theorem tame_stg1ReadMagic : Tame stg1ReadMagic :=
  (tame_readBytes 4).bind fun _ => .ite tame_readInteger
    (.ite (.pure _) (tame_fail (by decide) (by decide)))

theorem tame_readContents (totIno : Word) : Tame (readContents E stgFlags totIno) :=
  (tame_readInodes E stgFlags _).bind fun _ => (tame_ovlfsReadMappings E .base).bind fun _ =>
    tame_ovlfsReadMappings E .stg

end

end Ovlfs.Stg1
