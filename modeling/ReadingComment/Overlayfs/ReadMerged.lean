import Mathlib.Data.List.Infix
import Mathlib.Data.List.Nodup
import Mathlib.Algebra.Order.Ring.Int
import ReadingComment.Lib.Bytes
import ReadingComment.Lib.SearchTree

/-!
# Merging the listings of two directories (`overlayfs.c`)

`ovl_dir_read_merged` reads the upper directory and then the lower one. The entries are kept
on a list, and those of the upper directory in a tree too, in which the names of the lower one
are looked up. While the lower directory is read, a node on the stack marks where its entries
end.

`vfs_readdir` gives the entries of a directory in groups, however it likes; it may fail once it
has given so many of them, and an entry for which the filler has no memory is given again. The
rearrangement of the tree after an insertion keeps its order. A list is that of its nodes.
-/

namespace Overlayfs

open List

open Lib (Bytes SearchTree)

/-- What the filler is called with. -/
structure DirEnt where
  name : Bytes
  ino : ℕ
  type : ℕ
  deriving DecidableEq

/-- `DT_LNK`. -/
def dtLnk : ℕ := 10

/-- A `struct ovl_cache_entry`. -/
structure CacheEntry where
  name : Bytes
  type : ℕ
  ino : ℕ
  isWhiteout : Bool
  deriving DecidableEq

/-- `ovl_cache_entry_new(name, len, ino, d_type)`, with memory. -/
def ovlCacheEntryNew (d : DirEnt) : CacheEntry := ⟨d.name, d.type, d.ino, false⟩

/-- A node of the list: an entry, or `middle`. -/
inductive ListNode where
  | entry (p : CacheEntry)
  | middle
  deriving DecidableEq

/-- `struct ovl_readdir_data`. -/
structure ReaddirData where
  root : SearchTree Bytes
  list : List ListNode
  count : ℕ
  err : ℤ

/-- `rb_insert_color(node, root)`. -/
structure RbInsertColor where
  run : SearchTree Bytes → SearchTree Bytes
  inorder : ∀ t, (run t).inorder = t.inorder

/-- `strncmp(name, p->name, len)`; the name has `len` bytes, and `p->name` ends with a `NUL`. -/
def strncmp : Bytes → Bytes → ℤ
  | [], _ => 0
  | c :: _, [] => c.toNat
  | c :: cs, d :: ds => if c ≠ d then c.toNat - d.toNat else strncmp cs ds

def direction (name pname : Bytes) : Ordering :=
  let cmp := strncmp name pname
  if cmp > 0 then .gt
  else if cmp < 0 ∨ name.length < pname.length then .lt
  else .eq

/-- `ENOMEM`, as it is returned. -/
def noMemory : ℤ := -12

namespace ListNode

def isNamed (name : Bytes) : ListNode → Bool
  | entry p => p.name = name
  | middle => false

/-- `list_add_tail(node, middle)`. -/
def addBefore (n : ListNode) : List ListNode → List ListNode
  | [] => []
  | middle :: l => n :: middle :: l
  | entry p :: l => entry p :: addBefore n l

/-- `list_move_tail(&p->l_node, middle)`, for the entry with the name. -/
def moveBefore (name : Bytes) (l : List ListNode) : List ListNode :=
  match l.find? (isNamed name) with
  | none => l
  | some n => addBefore n (l.eraseP (isNamed name))

end ListNode

open ListNode (entry middle)

/-- `ovl_fill_upper(rdd, name, namelen, offset, ino, d_type)`; the result is whether it returned
something else than 0. -/
def ovlFillUpper (rb : RbInsertColor) (memory : Bool) (rdd : ReaddirData) (d : DirEnt) :
    ReaddirData × Bool :=
  let rdd := { rdd with count := rdd.count + 1 }
  match rdd.root.insert (direction d.name) d.name with
  | none => (rdd, false)
  | some root =>
    if memory then
      -- links are added before other types, so that whiteouts are marked quickly
      let p := entry (ovlCacheEntryNew d)
      let list := if d.type = dtLnk then p :: rdd.list else rdd.list ++ [p]
      ({ rdd with root := rb.run root, list := list }, false)
    else (rdd, true)

/-- `ovl_fill_lower(rdd, name, namelen, offset, ino, d_type)`. -/
def ovlFillLower (memory : Bool) (rdd : ReaddirData) (d : DirEnt) : ReaddirData × Bool :=
  let rdd := { rdd with count := rdd.count + 1 }
  match rdd.root.find (direction d.name) with
  | some name => ({ rdd with list := ListNode.moveBefore name rdd.list }, rdd.err ≠ 0)
  | none =>
    if memory then
      ({ rdd with list := ListNode.addBefore (entry (ovlCacheEntryNew d)) rdd.list }, rdd.err ≠ 0)
    else ({ rdd with err := noMemory }, true)

/-- A directory that is read, and what happens as it is: whether it can be opened, whether there is
memory for `prepare_creds`, its entries, after how many of them `vfs_readdir` fails, how many more
than one it gives in a call, and how often there is no memory for an entry. -/
structure RealDir where
  openErr : Option ℕ
  creds : Bool
  listing : List DirEnt
  noNul : ∀ d ∈ listing, 0 ∉ d.name
  nodup : (listing.map DirEnt.name).Nodup
  readErr : Option (ℕ × ℕ)
  group : ℕ → ℕ
  refusals : Bytes → ℕ

/-- Where the reading of a directory is: the entries that are left, how many were read, and how
often there was no memory for the next one. -/
structure Position where
  rest : List DirEnt
  read : ℕ
  tries : ℕ

abbrev Filler : Type := Bool → ReaddirData → DirEnt → ReaddirData × Bool

namespace RealDir

variable (R : RealDir) (fill : Filler)

/-- The error of `vfs_readdir` after so many entries. -/
def errAt (n : ℕ) : Option ℕ :=
  match R.readErr with
  | some (k, code) => if k = n then some code else none
  | none => none

/-- `vfs_readdir(realfile, filler, rdd)`, which gives at most `n` entries. -/
def vfsReaddir : ℕ → ReaddirData → Position → ℤ × ReaddirData × Position
  | 0, rdd, p => (0, rdd, p)
  | n + 1, rdd, p =>
    match R.errAt p.read with
    | some code => (-(code + 1), rdd, p)
    | none =>
      match p.rest with
      | [] => (0, rdd, p)
      | d :: rest =>
        match fill (R.refusals d.name ≤ p.tries) rdd d with
        | (rdd, true) => (0, rdd, { p with tries := p.tries + 1 })
        | (rdd, false) => vfsReaddir n rdd ⟨rest, p.read + 1, 0⟩

/-- The loop of `ovl_dir_read`. -/
def readLoop : ℕ → ℕ → ReaddirData → Position → Option (ℤ × ReaddirData)
  | 0, _, _, _ => none
  | fuel + 1, c, rdd, p =>
    let r := R.vfsReaddir fill (R.group c + 1) { rdd with count := 0, err := 0 } p
    let err := if 0 ≤ r.1 then r.2.1.err else r.1
    if err = 0 ∧ r.2.1.count ≠ 0 then readLoop fuel (c + 1) r.2.1 r.2.2
    else some (err, r.2.1)

end RealDir

/-- What must not happen: `kfree` of a node that is on the stack. -/
inductive BadFree where
  | middle
  deriving DecidableEq

/-- `ovl_cache_free(list)`. -/
def ovlCacheFree (list : List ListNode) : Except BadFree (List ListNode) :=
  if middle ∈ list then .error .middle else .ok []

/-- The part of `ovl_dir_read` with the credentials. -/
def readOpened (R : RealDir) (fill : Filler) (fuel : ℕ) (rdd : ReaddirData) :
    Option (ℤ × ReaddirData) :=
  if R.creds then R.readLoop fill fuel 0 rdd ⟨R.listing, 0, 0⟩ else some (noMemory, rdd)

/-- `ovl_dir_read(realpath, rdd, filler)`. -/
def ovlDirRead (R : RealDir) (fill : Filler) (fuel : ℕ) (rdd : ReaddirData) :
    Option (Except BadFree (ℤ × ReaddirData)) :=
  match R.openErr with
  | some code => some (.ok (-(code + 1), rdd))
  | none => (readOpened R fill fuel rdd).map fun r =>
    if r.1 ≠ 0 then (ovlCacheFree r.2.list).map fun list => (r.1, { r.2 with list := list })
    else .ok (0, r.2)

/-- `ovl_dir_mark_whiteouts(rdd)`; a lookup fails, or gives what `ovl_is_whiteout` says of the
object. -/
def ovlDirMarkWhiteouts (lookup : Bytes → Option Bool) : List ListNode → List ListNode
  | entry p :: l =>
    if p.type ≠ dtLnk then entry p :: l
    else match lookup p.name with
      | none => entry p :: ovlDirMarkWhiteouts lookup l
      | some whiteout => entry { p with isWhiteout := whiteout } :: ovlDirMarkWhiteouts lookup l
  | l => l

/-- The upper directory: which of its entries are whiteouts, and what lookups say. -/
structure UpperDir extends RealDir where
  whiteout : Bytes → Bool
  lookup : Bytes → Option Bool
  sound : ∀ name, lookup name = some true → whiteout name = true

/-- The reading of the lower directory, and what is left of the list. -/
def readLower (lower : RealDir) (fuel : ℕ) (rdd : ReaddirData) :
    Option (Except BadFree (ℤ × List ListNode)) :=
  (ovlDirRead lower ovlFillLower fuel { rdd with list := middle :: rdd.list }).map fun r =>
    r.map fun r => (r.1, r.2.list.erase middle)

/-- `ovl_dir_read_merged(upperpath, lowerpath, rdd)` with an empty list: what it returns, and the
list. -/
def ovlDirReadMerged (rb : RbInsertColor) (upper : Option UpperDir) (lower : RealDir) (fuel : ℕ) :
    Option (Except BadFree (ℤ × List ListNode)) :=
  let rdd : ReaddirData := ⟨.leaf, [], 0, 0⟩
  match upper with
  | none => readLower lower fuel rdd
  | some upper =>
    (ovlDirRead upper.toRealDir (ovlFillUpper rb) fuel rdd).bind fun
      | .error e => some (.error e)
      | .ok (err, rdd) =>
        if err ≠ 0 then some (.ok (err, rdd.list))
        else readLower lower fuel { rdd with list := ovlDirMarkWhiteouts upper.lookup rdd.list }

/-! ## The comparison of names -/

theorem direction_eq {name : Bytes} (h : 0 ∉ name) (pname : Bytes) :
    direction name pname = compare name pname := by
  induction name generalizing pname with
  | nil =>
    cases pname with
    | nil => rfl
    | cons d ds =>
      rw [List.compare_nil_cons, direction, strncmp]
      simp
  | cons c cs ih =>
    cases pname with
    | nil =>
      have hc : 0 < c.toNat := by
        rw [Nat.pos_iff_ne_zero]
        intro hzero
        exact h (mem_cons.mpr (.inl (UInt8.toNat_inj.mp hzero.symm)))
      rw [List.compare_cons_nil, direction, strncmp]
      exact if_pos (Int.natCast_pos.mpr hc)
    | cons d ds =>
      rw [List.compare_cons_cons]
      rcases eq_or_ne c d with rfl | hne
      · have hself : compare c c = .eq := Std.ReflOrd.compare_self
        rw [hself, Ordering.eq_then, ← ih (fun hcs => h (mem_cons_of_mem _ hcs))]
        simp only [direction, strncmp, ne_eq, not_true_eq_false, if_false, length_cons,
          Nat.add_lt_add_iff_right]
      · have hne' : c.toNat ≠ d.toNat := fun heq => hne (UInt8.toNat_inj.mp heq)
        rw [direction, strncmp, if_pos hne]
        rcases Nat.lt_or_gt_of_ne hne' with hlt | hgt
        · have hcmp : compare c d = .lt := Std.compare_eq_lt.mpr (UInt8.lt_iff_toNat_lt.mpr hlt)
          rw [hcmp]
          simp only [Ordering.lt_then]
          rw [if_neg (by omega), if_pos (.inl (by omega))]
        · have hcmp : compare c d = .gt := Std.compare_eq_gt.mpr (UInt8.lt_iff_toNat_lt.mpr hgt)
          rw [hcmp]
          simp only [Ordering.gt_then]
          rw [if_pos (by omega)]

/-! ## Reading one directory -/

namespace RealDir

/-- `vfs_readdir` fails before it has come to the end. -/
def ReadFails (R : RealDir) : Prop := ∃ k code, R.readErr = some (k, code) ∧ k ≤ R.listing.length

/-- Reading the directory fails: `vfs_readdir` does, or there is no memory for an entry without
which the reading is given up. -/
def LoopFails (R : RealDir) (Stops : DirEnt → Prop) : Prop :=
  R.ReadFails ∨ ∃ d ∈ R.listing, Stops d ∧ 0 < R.refusals d.name

/-- What a filler does with the entries of a directory. `Inv` says what the entries that were taken
have become; the reading is given up where there is no memory for an entry that stops it, and
another such entry is left for the next call. -/
structure Fills (R : RealDir) (fill : Filler) (Inv : List DirEnt → ReaddirData → Prop)
    (Stops : DirEnt → Prop) : Prop where
  congr : ∀ {pre rdd rdd'}, Inv pre rdd → rdd'.root = rdd.root → rdd'.list = rdd.list → Inv pre rdd'
  fill : ∀ {pre d rest rdd} memory, R.listing = pre ++ d :: rest → Inv pre rdd → rdd.err = 0 →
    (∃ rdd', fill memory rdd d = (rdd', false) ∧ rdd'.err = 0 ∧ rdd'.count = rdd.count + 1 ∧
      Inv (pre ++ [d]) rdd' ∧ (memory = false → ¬ Stops d)) ∨
    memory = false ∧ ∃ rdd', fill memory rdd d = (rdd', true) ∧ rdd'.count = rdd.count + 1 ∧
      Inv pre rdd' ∧ (rdd'.err = 0 ∧ ¬ Stops d ∨ rdd'.err < 0 ∧ Stops d)

/-- Where the reading is once `pre` was taken, and nothing has failed. -/
structure At (R : RealDir) (Stops : DirEnt → Prop) (pre : List DirEnt) (p : Position) : Prop where
  listing : R.listing = pre ++ p.rest
  read : p.read = pre.length
  tries : ∀ d rest, p.rest = d :: rest → p.tries ≤ R.refusals d.name ∧ (0 < p.tries → ¬ Stops d)
  noErr : ∀ k < p.read, R.errAt k = none
  taken : ∀ d ∈ pre, ¬ (Stops d ∧ 0 < R.refusals d.name)

def weight (R : RealDir) (p : Position) : ℕ :=
  (p.rest.map fun d => R.refusals d.name + 1).sum - p.tries

variable {R : RealDir} {fill : Filler} {Inv : List DirEnt → ReaddirData → Prop}
  {Stops : DirEnt → Prop} {pre : List DirEnt} {p : Position} {rdd : ReaddirData}

theorem errAt_eq_some {k code : ℕ} : R.errAt k = some code ↔ R.readErr = some (k, code) := by
  rw [errAt]
  cases R.readErr with
  | none => simp
  | some e =>
    obtain ⟨k', code'⟩ := e
    simp only [Option.some.injEq, Prod.mk.injEq]
    split
    · rename_i heq
      simp [heq]
    · rename_i hne
      simp [hne]

theorem At.start : R.At Stops [] ⟨R.listing, 0, 0⟩ where
  listing := rfl
  read := rfl
  tries _ _ _ := ⟨Nat.zero_le _, fun h => absurd h (Nat.lt_irrefl 0)⟩
  noErr _ h := absurd h (Nat.not_lt_zero _)
  taken _ h := nomatch h

section

variable {d : DirEnt} {rest : List DirEnt} {read tries : ℕ}
  (h : R.At Stops pre ⟨d :: rest, read, tries⟩)

include h

theorem At.take (herr : R.errAt read = none) (hstops : ¬ (Stops d ∧ 0 < R.refusals d.name)) :
    R.At Stops (pre ++ [d]) ⟨rest, read + 1, 0⟩ where
  listing := by rw [h.listing, append_assoc, singleton_append]
  read := by rw [length_append, length_singleton, ← h.read]
  tries _ _ _ := ⟨Nat.zero_le _, fun h => absurd h (Nat.lt_irrefl 0)⟩
  noErr k hk := by
    rcases Nat.lt_succ_iff_lt_or_eq.mp hk with hlt | rfl
    · exact h.noErr k hlt
    · exact herr
  taken x hx := by
    rcases mem_append.mp hx with hx | hx
    · exact h.taken x hx
    · rwa [mem_singleton.mp hx]

theorem At.leave (hlt : tries < R.refusals d.name) (hstops : ¬ Stops d) :
    R.At Stops pre ⟨d :: rest, read, tries + 1⟩ where
  listing := h.listing
  read := h.read
  tries := by
    rintro x xs heq
    cases heq
    exact ⟨hlt, fun _ => hstops⟩
  noErr := h.noErr
  taken := h.taken

end

theorem At.finish (h : R.At Stops pre p) (hrest : p.rest = []) (herr : R.errAt p.read = none) :
    pre = R.listing ∧ ¬ R.LoopFails Stops := by
  have hpre : R.listing = pre := by rw [h.listing, hrest, append_nil]
  refine ⟨hpre.symm, ?_⟩
  rintro (⟨k, code, hread, hk⟩ | ⟨d, hd, hfail⟩)
  · have hsome := errAt_eq_some.mpr hread
    rw [hpre, ← h.read] at hk
    rcases Nat.lt_or_eq_of_le hk with hlt | rfl
    · rw [h.noErr k hlt] at hsome
      cases hsome
    · rw [herr] at hsome
      cases hsome
  · exact h.taken d (hpre ▸ hd) hfail

/-- A call that has not failed. -/
structure Called (R : RealDir) (Inv : List DirEnt → ReaddirData → Prop) (Stops : DirEnt → Prop)
    (n : ℕ) (rdd : ReaddirData) (p : Position) (r : ℤ × ReaddirData × Position) : Prop where
  ret : r.1 = 0
  err : r.2.1.err = 0
  place : ∃ pre, R.At Stops pre r.2.2 ∧ Inv pre r.2.1
  weight : r.2.1.count + R.weight r.2.2 ≤ rdd.count + R.weight p
  count : rdd.count ≤ r.2.1.count
  atEnd : 0 < n → r.2.1.count = rdd.count → r.2.2.rest = [] ∧ R.errAt r.2.2.read = none

/-- A call that has failed. -/
structure CallFailed (R : RealDir) (Inv : List DirEnt → ReaddirData → Prop) (Stops : DirEnt → Prop)
    (r : ℤ × ReaddirData × Position) : Prop where
  ret : r.1 < 0 ∨ r.1 = 0 ∧ r.2.1.err < 0
  fails : R.LoopFails Stops
  place : ∃ pre, Inv pre r.2.1

theorem Fills.vfsReaddir (h : R.Fills fill Inv Stops) (n : ℕ) (hat : R.At Stops pre p)
    (hinv : Inv pre rdd) (herr : rdd.err = 0) :
    R.Called Inv Stops n rdd p (R.vfsReaddir fill n rdd p) ∨
      R.CallFailed Inv Stops (R.vfsReaddir fill n rdd p) := by
  induction n generalizing pre rdd p with
  | zero =>
    exact .inl ⟨rfl, herr, ⟨pre, hat, hinv⟩, le_rfl, le_rfl, fun h => absurd h (Nat.lt_irrefl 0)⟩
  | succ n ih =>
    obtain ⟨rest, read, tries⟩ := p
    rw [RealDir.vfsReaddir]
    split
    · rename_i code hcode
      refine .inr ⟨.inl (by dsimp only; omega), .inl ⟨read, code, errAt_eq_some.mp hcode, ?_⟩, pre,
        hinv⟩
      rw [hat.listing, length_append, ← hat.read]
      exact Nat.le_add_right _ _
    · rename_i hnone
      cases rest with
      | nil => exact .inl ⟨rfl, herr, ⟨pre, hat, hinv⟩, le_rfl, le_rfl, fun _ _ => ⟨rfl, hnone⟩⟩
      | cons d rest =>
        obtain ⟨htries, htried⟩ := hat.tries d rest rfl
        dsimp only at htries htried ⊢
        rcases h.fill (R.refusals d.name ≤ tries) hat.listing hinv herr with
          ⟨rdd', hfill, herr', hcount, hinv', hmem⟩ | ⟨hmem, rdd', hfill, hcount, hinv', hstop⟩
        · rw [hfill]
          have hstops : ¬ (Stops d ∧ 0 < R.refusals d.name) := by
            rintro ⟨hstops, hpos⟩
            rcases Nat.eq_zero_or_pos tries with hzero | htries
            · refine hmem ?_ hstops
              rw [decide_eq_false_iff_not]
              omega
            · exact htried htries hstops
          have hweight : R.weight ⟨rest, read + 1, 0⟩ + 1 ≤ R.weight ⟨d :: rest, read, tries⟩ := by
            simp only [weight, map_cons, sum_cons]
            omega
          rcases ih (hat.take hnone hstops) hinv' herr' with hcalled | hfailed
          · have hle := hcalled.weight
            have hmore := hcalled.count
            exact .inl ⟨hcalled.ret, hcalled.err, hcalled.place, by dsimp only; omega,
              by dsimp only; omega, fun _ heq => by dsimp only at heq; omega⟩
          · exact .inr hfailed
        · rw [hfill]
          have hlt : tries < R.refusals d.name := Nat.not_le.mp (decide_eq_false_iff_not.mp hmem)
          rcases hstop with ⟨herr', hstops⟩ | ⟨herr', hstops⟩
          · have hweight : R.weight ⟨d :: rest, read, tries + 1⟩ + 1 ≤
                R.weight ⟨d :: rest, read, tries⟩ := by
              simp only [weight, map_cons, sum_cons]
              omega
            exact .inl ⟨rfl, herr', ⟨pre, hat.leave hlt hstops, hinv'⟩, by dsimp only; omega,
              by dsimp only; omega, fun _ heq => by dsimp only at heq; omega⟩
          · refine .inr ⟨.inr ⟨rfl, herr'⟩, .inr ⟨d, ?_, hstops, by omega⟩, pre, hinv'⟩
            rw [hat.listing]
            exact mem_append_right _ mem_cons_self

/-- **The loop of `ovl_dir_read` ends**: it has read the directory, or the reading fails. -/
theorem Fills.readLoop (h : R.Fills fill Inv Stops) {fuel : ℕ} (c : ℕ) (hat : R.At Stops pre p)
    (hinv : Inv pre rdd) (hfuel : R.weight p < fuel) :
    ∃ err rdd', R.readLoop fill fuel c rdd p = some (err, rdd') ∧
      (err < 0 ∧ R.LoopFails Stops ∧ (∃ pre', Inv pre' rdd') ∨
        err = 0 ∧ ¬ R.LoopFails Stops ∧ Inv R.listing rdd') := by
  induction fuel generalizing c pre rdd p with
  | zero => exact absurd hfuel (Nat.not_lt_zero _)
  | succ fuel ih =>
    have hstart : Inv pre { rdd with count := 0, err := 0 } := h.congr hinv rfl rfl
    rw [RealDir.readLoop]
    rcases h.vfsReaddir (R.group c + 1) hat hstart rfl with hcalled | hfailed
    · obtain ⟨pre', hat', hinv'⟩ := hcalled.place
      have hweight := hcalled.weight
      rw [if_pos hcalled.ret.ge, hcalled.err]
      split
      · rename_i hcount
        refine ih _ hat' hinv' ?_
        have hpos := Nat.pos_of_ne_zero hcount.2
        dsimp only at hweight hpos ⊢
        omega
      · rename_i hcount
        have hzero := not_not.mp fun hne => hcount ⟨rfl, hne⟩
        obtain ⟨hrest, herr⟩ := hcalled.atEnd (Nat.succ_pos _) hzero
        obtain ⟨hpre, hgood⟩ := hat'.finish hrest herr
        exact ⟨0, _, rfl, .inr ⟨rfl, hgood, hpre ▸ hinv'⟩⟩
    · obtain ⟨pre', hinv'⟩ := hfailed.place
      have hneg : (if 0 ≤ (R.vfsReaddir fill (R.group c + 1) { rdd with count := 0, err := 0 } p).1
          then (R.vfsReaddir fill (R.group c + 1) { rdd with count := 0, err := 0 } p).2.1.err
          else (R.vfsReaddir fill (R.group c + 1) { rdd with count := 0, err := 0 } p).1) < 0 := by
        rcases hfailed.ret with hret | ⟨hret, herr⟩
        · rwa [if_neg (not_le.mpr hret)]
        · rwa [if_pos hret.ge]
      rw [if_neg fun hcond => hneg.ne hcond.1]
      exact ⟨_, _, rfl, .inl ⟨hneg, hfailed.fails, pre', hinv'⟩⟩

def size (R : RealDir) : ℕ := R.weight ⟨R.listing, 0, 0⟩

def Fails (R : RealDir) (Stops : DirEnt → Prop) : Prop :=
  R.openErr ≠ none ∨ R.creds = false ∨ R.LoopFails Stops

theorem Fills.ovlDirRead (h : R.Fills fill Inv Stops) {fuel : ℕ} (hinv : Inv [] rdd)
    (hfuel : R.size < fuel) :
    (∃ code, R.openErr = some code ∧
      ovlDirRead R fill fuel rdd = some (.ok (-(code + 1), rdd))) ∨
    R.openErr = none ∧
      ((R.creds = false ∨ R.LoopFails Stops) ∧ (∃ err pre rdd', err < 0 ∧ Inv pre rdd' ∧
          ovlDirRead R fill fuel rdd =
            some ((ovlCacheFree rdd'.list).map fun list => (err, { rdd' with list := list }))) ∨
        ¬ (R.creds = false ∨ R.LoopFails Stops) ∧ ∃ rdd', Inv R.listing rdd' ∧
          ovlDirRead R fill fuel rdd = some (.ok (0, rdd'))) := by
  cases hopen : R.openErr with
  | some code => exact .inl ⟨code, rfl, by rw [Overlayfs.ovlDirRead, hopen]⟩
  | none =>
    refine .inr ⟨rfl, ?_⟩
    cases hcreds : R.creds with
    | false =>
      have hread : readOpened R fill fuel rdd = some (noMemory, rdd) := by
        rw [readOpened, hcreds, if_neg Bool.false_ne_true]
      refine .inl ⟨.inl rfl, noMemory, [], rdd, by decide, hinv, ?_⟩
      rw [Overlayfs.ovlDirRead, hopen]
      simp only [hread, Option.map_some]
      rw [if_pos (by decide)]
    | true =>
      obtain ⟨err, rdd', hloop, hend⟩ := h.readLoop 0 At.start hinv hfuel
      have hread : readOpened R fill fuel rdd = some (err, rdd') := by
        rw [readOpened, hcreds, if_pos rfl, hloop]
      rw [Overlayfs.ovlDirRead, hopen]
      simp only [hread, Option.map_some]
      rcases hend with ⟨herr, hfails, pre, hinv'⟩ | ⟨rfl, hgood, hinv'⟩
      · exact .inl ⟨.inr hfails, err, pre, rdd', herr, hinv', by rw [if_pos herr.ne]⟩
      · refine .inr ⟨?_, rdd', hinv', by rw [if_neg fun hne => hne rfl]⟩
        exact fun hor => hor.elim nofun hgood

end RealDir

/-! ## The upper directory -/

/-- The entries of the upper directory in the order of the list: the links come first. -/
def upperCache (U : List DirEnt) : List CacheEntry :=
  ((U.filter fun d => d.type = dtLnk).reverse ++ U.filter fun d => d.type ≠ dtLnk).map
    ovlCacheEntryNew

/-- The names of entries are in the tree, and their entries on the list. -/
structure UpperRead (pre : List DirEnt) (rdd : ReaddirData) : Prop where
  ordered : rdd.root.Ordered compare
  names : ∀ n, n ∈ rdd.root.inorder ↔ n ∈ pre.map DirEnt.name
  list : rdd.list = (upperCache pre).map entry

theorem upperCache_concat (U : List DirEnt) (d : DirEnt) :
    upperCache (U ++ [d]) = if d.type = dtLnk then ovlCacheEntryNew d :: upperCache U
      else upperCache U ++ [ovlCacheEntryNew d] := by
  simp only [upperCache, filter_append, filter_singleton]
  split
  · rename_i hlnk
    simp [hlnk]
  · rename_i hlnk
    simp [hlnk]

theorem ovlFillUpper_fills (rb : RbInsertColor) (R : RealDir) :
    R.Fills (ovlFillUpper rb) UpperRead fun _ => False where
  congr h hroot hlist := ⟨hroot ▸ h.ordered, hroot ▸ h.names, hlist.trans h.list⟩
  fill := by
    intro pre d rest rdd memory hlisting h herr
    have hd : d ∈ R.listing := by
      rw [hlisting]
      exact mem_append_right _ mem_cons_self
    have hnew : d.name ∉ rdd.root.inorder := by
      rw [h.names]
      have hnodup := R.nodup
      rw [hlisting, map_append, nodup_append] at hnodup
      exact fun hmem => hnodup.2.2 _ hmem _ (mem_map_of_mem mem_cons_self) rfl
    obtain ⟨root, hins, hordered, hnames⟩ := SearchTree.insert_of_not_mem h.ordered hnew
    have hdir : direction d.name = compare d.name := funext (direction_eq (R.noNul d hd))
    rw [← hdir] at hins
    cases memory with
    | false =>
      refine .inr ⟨rfl, { rdd with count := rdd.count + 1 }, ?_, rfl, ⟨h.ordered, h.names, h.list⟩,
        .inl ⟨herr, id⟩⟩
      simp only [ovlFillUpper, hins, Bool.false_eq_true, if_false]
    | true =>
      refine .inl ⟨⟨rb.run root, if d.type = dtLnk then entry (ovlCacheEntryNew d) :: rdd.list
        else rdd.list ++ [entry (ovlCacheEntryNew d)], rdd.count + 1, rdd.err⟩,
        by simp only [ovlFillUpper, hins, if_true], herr, rfl, ⟨?_, ?_, ?_⟩, nofun⟩
      · rw [SearchTree.Ordered, rb.inorder]
        exact hordered
      · intro n
        rw [rb.inorder, hnames, h.names, map_append, mem_append, or_comm]
        exact or_congr_right mem_singleton.symm
      · dsimp only
        rw [upperCache_concat, h.list]
        split
        · rfl
        · rw [map_append]
          rfl

end Overlayfs
