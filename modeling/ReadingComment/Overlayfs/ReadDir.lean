import Mathlib.Data.List.Count
import ReadingComment.Overlayfs.MergedListing

/-!
# Reading a merged directory in parts (`overlayfs.c`)

An open directory keeps the merged listing with a cursor in it, and `f_pos`. `ovl_readdir` gives the
entries from the cursor on until the filler refuses one, and `ovl_dir_llseek` moves the cursor. The
directory is not changed while it is read.

The cursor and `f_pos` are moved before the filler is called, so that an entry it refuses is lost;
`ovl_seek_cursor` counts the cursor itself when it comes before the position; and when the lower
directory cannot be opened, the entries of the upper one stay on the list, to which the next call
adds them again.
-/

namespace Overlayfs

open List

/-- A node of the list of an open directory. -/
inductive DirNode where
  | entry (p : CacheEntry)
  | cursor
  deriving DecidableEq

/-- The list with the cursor in it: the entries before it, and those after it. -/
structure CursorList where
  before : List CacheEntry
  after : List CacheEntry

def CursorList.nodes (c : CursorList) : List DirNode :=
  c.before.map .entry ++ .cursor :: c.after.map .entry

/-- `struct ovl_dir_file` of a merged directory, with the `f_pos` of its file. There is no cache if
not `is_cached`: then the cursor is not in the list, which has what a call that failed has `left` on
it. -/
structure DirFile where
  cacheVersion : ℕ
  cache : Option CursorList
  left : List CacheEntry
  fPos : ℕ

/-- `ovl_dir_open`. -/
def ovlDirOpen : DirFile := ⟨0, none, [], 0⟩

/-- `ovl_dir_reset(file)`, with the version of the dentry. -/
def ovlDirReset (version : ℕ) (f : DirFile) : DirFile :=
  if version ≠ f.cacheVersion then { f with cache := none, left := [] } else f

/-- A merged directory: the entries of the upper one that are links, in the order in which they get
to the list, with their whiteouts marked, its other entries, and the entries of the lower one. -/
structure MergedDir where
  links : List CacheEntry
  others : List CacheEntry
  lower : List DirEnt

/-- The list after the upper directory was read: links are added to its head, and other entries to
its tail. -/
def MergedDir.upperOn (D : MergedDir) (left : List CacheEntry) : List CacheEntry :=
  D.links ++ left ++ D.others

/-- The list after both directories were read: the names of the lower one come first, with the
entries of the upper one if they are there too. -/
def MergedDir.listing (D : MergedDir) (left : List CacheEntry) : List CacheEntry :=
  D.lower.map (pick (D.links ++ D.others)) ++
    (unlisted D.links D.lower ++ left ++ unlisted D.others D.lower)

/-- How a call of `ovl_dir_read_merged` goes. -/
inductive Merging where
  | done
  /-- the upper directory cannot be opened -/
  | upperClosed (code : ℕ)
  /-- it cannot be read, and the list is freed -/
  | upperFails (code : ℕ)
  /-- the lower directory cannot be opened -/
  | lowerClosed (code : ℕ)
  /-- it cannot be read, and the list is freed with `middle` on it -/
  | lowerFails

/-- `ovl_dir_read_merged(&upperpath, &lowerpath, &rdd)` with `od->cache`: what it returns, and the
list. Nothing is defined after a `kfree` of `middle`. -/
def MergedDir.readMerged (D : MergedDir) (left : List CacheEntry) :
    Merging → Option (ℤ × List CacheEntry)
  | .done => some (0, D.listing left)
  | .upperClosed code => some (-(code + 1), left)
  | .upperFails code => some (-(code + 1), [])
  | .lowerClosed code => some (-(code + 1), D.upperOn left)
  | .lowerFails => none

def DirNode.entry? : DirNode → Option CacheEntry
  | entry p => some p
  | cursor => none

/-- `list_move_tail(&od->cursor, l)`, for the node with the number, or for the head after the last
one. The list is broken if the cursor is moved before itself. -/
def moveCursor (nodes : List DirNode) (l : ℕ) : Option CursorList :=
  if nodes[l]? = some .cursor then none
  else some ⟨(nodes.take l).filterMap DirNode.entry?, (nodes.drop l).filterMap DirNode.entry?⟩

/-- `ovl_seek_cursor(od, pos)`; it goes on node by node, and stops at the head. -/
def ovlSeekCursor (nodes : List DirNode) (pos : ℕ) : Option CursorList :=
  moveCursor nodes (min pos nodes.length)

/-- The loop of `ovl_readdir`, with a filler that accepts `room` more entries: `f_pos`, the list,
and the entries that were accepted, with their offsets. -/
def readdirLoop : ℕ → ℕ → List CacheEntry → List CacheEntry →
    ℕ × CursorList × List (CacheEntry × ℕ)
  | _, fPos, before, [] => (fPos, ⟨before, []⟩, [])
  | room, fPos, before, p :: after =>
    if p.isWhiteout then readdirLoop room (fPos + 1) (before ++ [p]) after
    else match room with
      | 0 => (fPos + 1, ⟨before ++ [p], after⟩, [])
      | room + 1 =>
        let r := readdirLoop room (fPos + 1) (before ++ [p]) after
        (r.1, r.2.1, (p, fPos) :: r.2.2)

/-- `ovl_readdir(file, buf, filler)`, where `ovl_dir_read_merged` goes as `how` says, if it is
called. -/
def ovlReaddir (D : MergedDir) (version : ℕ) (how : Merging) (room : ℕ) (f : DirFile) :
    Option (ℤ × DirFile × List (CacheEntry × ℕ)) :=
  let f := if f.fPos = 0 then ovlDirReset version f else f
  match f.cache with
  | some c =>
    let r := readdirLoop room f.fPos c.before c.after
    some (0, { f with cache := some r.2.1, fPos := r.1 }, r.2.2)
  | none => do
    let (res, list) ← D.readMerged f.left how
    if res ≠ 0 then return (res, { f with left := list }, [])
    let c ← ovlSeekCursor (list.map .entry) f.fPos
    let r := readdirLoop room f.fPos c.before c.after
    return (0, ⟨version, some r.2.1, [], r.1⟩, r.2.2)

inductive Origin where
  | set
  | cur
  | other
  deriving DecidableEq

/-- `EINVAL`, as it is returned. -/
def invalid : ℤ := -22

/-- Where `ovl_dir_llseek` goes, if that is an offset. -/
def seekTarget (offset : ℤ) (origin : Origin) (f : DirFile) : Option ℕ :=
  match origin with
  | .other => none
  | .set => if offset < 0 then none else some offset.toNat
  | .cur => if offset + f.fPos < 0 then none else some (offset + f.fPos).toNat

/-- `ovl_dir_llseek(file, offset, origin)`. -/
def ovlDirLlseek (version : ℕ) (offset : ℤ) (origin : Origin) (f : DirFile) :
    Option (ℤ × DirFile) :=
  let f := if f.fPos = 0 then ovlDirReset version f else f
  match seekTarget offset origin f with
  | none => some (invalid, f)
  | some pos =>
    if pos = f.fPos then some (pos, f)
    else match f.cache with
      | none => some (pos, { f with fPos := pos })
      | some c => (ovlSeekCursor c.nodes pos).map fun c =>
        (pos, { f with cache := some c, fPos := pos })

/-! ## Runs -/

/-- What is done with an open directory. In a `readdir` the filler accepts `room` entries and
refuses the next; `ovl_dir_read_merged` goes as `how` says, if it is called. -/
inductive DirAction where
  | readdir (how : Merging) (room : ℕ)
  | llseek (offset : ℤ) (origin : Origin)

/-- An open directory, the offset from which it is read, and what the filler has accepted since. -/
structure Reading where
  file : DirFile
  start : ℕ
  pass : List (CacheEntry × ℕ)

namespace Reading

variable (D : MergedDir) (version : ℕ)

def initial : Reading := ⟨ovlDirOpen, 0, []⟩

def step (w : Reading) : DirAction → Option Reading
  | .readdir how room =>
    (ovlReaddir D version how room w.file).map fun r =>
      { w with file := r.2.1, pass := w.pass ++ r.2.2 }
  | .llseek offset origin => (ovlDirLlseek version offset origin w.file).map fun r =>
    if r.2.fPos = w.file.fPos then { w with file := r.2 } else ⟨r.2, r.2.fPos, []⟩

def run (acts : List DirAction) : Option Reading :=
  acts.foldlM (step D version) initial

end Reading

def shown (p : CacheEntry × ℕ) : Bool := !p.1.isWhiteout

/-- `f_pos` is the number of entries before the cursor, and of those between the offset from which
the directory is read and `f_pos` each that is not a whiteout was accepted, once and in order. -/
structure ReadsRight (M : List CacheEntry) (w : Reading) : Prop where
  entries : ∀ c, w.file.cache = some c → c.before ++ c.after = M
  position : ∀ c, w.file.cache = some c → w.file.fPos = c.before.length
  pass : w.pass = ((M.zipIdx.take w.file.fPos).drop w.start).filter shown

/-- What is left on the list when a call begins. -/
def DirFile.leftAtStart (version : ℕ) (f : DirFile) : List CacheEntry :=
  if f.fPos = 0 ∧ version ≠ f.cacheVersion then [] else f.left

/-- No entry is refused, and no offset is sought that is after `f_pos`. When the directory is read,
the list is empty and the offset not after the end, or the call fails before the lower one is
open. -/
def Fits (D : MergedDir) (version : ℕ) (f : DirFile) : DirAction → Prop
  | .readdir how room =>
    match f.cache, how with
    | some c, _ => c.after.countP (!·.isWhiteout) ≤ room
    | none, .done => f.leftAtStart version = [] ∧ f.fPos ≤ (D.listing []).length ∧
      ((D.listing []).drop f.fPos).countP (!·.isWhiteout) ≤ room
    | none, .lowerFails => False
    | none, _ => True
  | .llseek offset origin =>
    f.cache ≠ none → ∀ pos, seekTarget offset origin f = some pos → pos ≤ f.fPos

theorem ReadsRight.whole {M : List CacheEntry} {w : Reading} {c : CursorList} (h : ReadsRight M w)
    (hstart : w.start = 0) (hc : w.file.cache = some c) (hafter : c.after = []) :
    w.pass.map Prod.fst = M.filter (!·.isWhiteout) := by
  have hbefore : c.before = M := by rw [← h.entries c hc, hafter, append_nil]
  have hlen : M.zipIdx.length ≤ w.file.fPos := by
    rw [h.position c hc, hbefore, length_zipIdx]
  have hshown : shown = (fun p : CacheEntry => !p.isWhiteout) ∘ Prod.fst := rfl
  rw [h.pass, hstart, drop_zero, take_of_length_le hlen, hshown, ← filter_map,
    zipIdx_map_fst]

/-! ## The loop of `ovl_readdir` -/

variable {M before after : List CacheEntry} {p : CacheEntry} {room fPos : ℕ}

theorem readdirLoop_whiteout (hp : p.isWhiteout = true) :
    readdirLoop room fPos before (p :: after) =
      readdirLoop room (fPos + 1) (before ++ [p]) after := by
  cases room with
  | zero => simp [readdirLoop, hp]
  | succ room => simp [readdirLoop, hp]

theorem readdirLoop_refuse (hp : p.isWhiteout = false) :
    readdirLoop 0 fPos before (p :: after) = (fPos + 1, ⟨before ++ [p], after⟩, []) := by
  simp [readdirLoop, hp]

theorem readdirLoop_accept (hp : p.isWhiteout = false) :
    readdirLoop (room + 1) fPos before (p :: after) =
      ((readdirLoop room (fPos + 1) (before ++ [p]) after).1,
        (readdirLoop room (fPos + 1) (before ++ [p]) after).2.1,
        (p, fPos) :: (readdirLoop room (fPos + 1) (before ++ [p]) after).2.2) := by
  simp [readdirLoop, hp]

theorem shown_eq {n : ℕ} : shown (p, n) = !p.isWhiteout := rfl

theorem readdirLoop_fits (h : after.countP (!·.isWhiteout) ≤ room) :
    readdirLoop room fPos before after =
      (fPos + after.length, ⟨before ++ after, []⟩, (after.zipIdx fPos).filter shown) := by
  induction after generalizing room fPos before with
  | nil => simp [readdirLoop]
  | cons p after ih =>
    rw [countP_cons] at h
    rw [zipIdx_cons, filter_cons, shown_eq, length_cons, Nat.add_comm after.length,
      ← Nat.add_assoc]
    cases hp : p.isWhiteout with
    | true =>
      rw [readdirLoop_whiteout hp, ih (by omega), append_assoc]
      rfl
    | false =>
      rw [hp, Bool.not_false, if_pos rfl] at h
      obtain ⟨room, rfl⟩ := Nat.exists_eq_succ_of_ne_zero (show room ≠ 0 by omega)
      rw [readdirLoop_accept hp, ih (by omega), append_assoc]
      rfl

theorem readdirLoop_refuses (h : room < after.countP (!·.isWhiteout)) :
    ∃ given p rest, after = given ++ p :: rest ∧ p.isWhiteout = false ∧
      readdirLoop room fPos before after = (fPos + 1 + given.length,
        ⟨before ++ (given ++ [p]), rest⟩, (given.zipIdx fPos).filter shown) := by
  induction after generalizing room fPos before with
  | nil => exact absurd h (Nat.not_lt_zero _)
  | cons p after ih =>
    rw [countP_cons] at h
    cases hp : p.isWhiteout with
    | true =>
      rw [hp, Bool.not_true, if_neg Bool.false_ne_true] at h
      obtain ⟨given, q, rest, rfl, hq, heq⟩ := ih h
      refine ⟨p :: given, q, rest, rfl, hq, ?_⟩
      rw [readdirLoop_whiteout hp, heq, zipIdx_cons, filter_cons, shown_eq, hp,
        length_cons, Nat.add_comm given.length, ← Nat.add_assoc, append_assoc]
      rfl
    | false =>
      rw [hp, Bool.not_false, if_pos rfl] at h
      cases room with
      | zero => exact ⟨[], p, after, rfl, hp, readdirLoop_refuse hp⟩
      | succ room =>
        obtain ⟨given, q, rest, rfl, hq, heq⟩ := ih (Nat.lt_of_succ_lt_succ h)
        refine ⟨p :: given, q, rest, rfl, hq, ?_⟩
        rw [readdirLoop_accept hp, heq, zipIdx_cons, filter_cons, shown_eq, hp,
          length_cons, Nat.add_comm given.length, ← Nat.add_assoc, append_assoc]
        rfl

theorem readdirLoop_entries :
    (readdirLoop room fPos before after).2.1.before ++
      (readdirLoop room fPos before after).2.1.after = before ++ after := by
  rcases Nat.lt_or_ge room (after.countP (!·.isWhiteout)) with h | h
  · obtain ⟨given, p, rest, rfl, -, hloop⟩ := @readdirLoop_refuses before after room fPos h
    simp [hloop]
  · rw [readdirLoop_fits h]
    exact append_nil _

/-! ## The listing -/

theorem MergedDir.listing_nil (D : MergedDir) :
    D.listing [] = mergedCache (D.links ++ D.others) D.lower := by
  rw [listing, mergedCache, unlisted, unlisted, unlisted, append_nil, filter_append]

theorem MergedDir.left_of_listing {D : MergedDir} {left : List CacheEntry}
    (h : D.listing left = D.listing []) : left = [] := by
  have hlen := congrArg List.length h
  simp only [listing, length_append, length_nil] at hlen
  exact eq_nil_of_length_eq_zero (by omega)

/-! ## Seeking -/

theorem filterMap_entry (l : List CacheEntry) :
    (l.map DirNode.entry).filterMap DirNode.entry? = l := by
  rw [filterMap_map]
  exact filterMap_some

theorem ovlSeekCursor_entries (pos : ℕ) :
    ovlSeekCursor (M.map .entry) pos = some ⟨M.take pos, M.drop pos⟩ := by
  have hnot : (M.map DirNode.entry)[min pos (M.map DirNode.entry).length]? ≠ some .cursor := by
    intro h
    obtain ⟨p, -, hp⟩ := mem_map.mp (mem_of_getElem? h)
    cases hp
  rw [ovlSeekCursor, moveCursor, if_neg hnot, ← map_take, ← map_drop, filterMap_entry,
    filterMap_entry, length_map]
  rcases Nat.le_total pos M.length with hle | hle
  · rw [Nat.min_eq_left hle]
  · rw [Nat.min_eq_right hle, take_length, drop_length, take_of_length_le hle,
      drop_of_length_le hle]

theorem ovlSeekCursor_back {c : CursorList} {pos : ℕ} (h : pos < c.before.length) :
    ovlSeekCursor c.nodes pos = some ⟨c.before.take pos, c.before.drop pos ++ c.after⟩ := by
  have hlen : pos < (c.before.map DirNode.entry).length := by rwa [length_map]
  have hmin : min pos c.nodes.length = pos := by
    rw [CursorList.nodes, length_append]
    omega
  have hnode : c.nodes[pos]? ≠ some .cursor := by
    rw [CursorList.nodes, getElem?_append_left hlen, getElem?_map]
    intro hsome
    obtain ⟨p, -, hp⟩ := Option.map_eq_some_iff.mp hsome
    cases hp
  rw [ovlSeekCursor, hmin, moveCursor, if_neg hnode, CursorList.nodes,
    take_append_of_le_length hlen.le, drop_append_of_le_length hlen.le, ← map_take,
    ← map_drop, filterMap_entry, filterMap_append, filterMap_entry,
    filterMap_cons_none rfl, filterMap_entry]

theorem ovlSeekCursor_forward {c c' : CursorList} {pos : ℕ} (h : c.before.length < pos)
    (hseek : ovlSeekCursor c.nodes pos = some c') : c'.before.length < pos := by
  have hlen : c.nodes.length = c.before.length + 1 + c.after.length := by
    rw [CursorList.nodes, length_append, length_cons, length_map, length_map]
    omega
  obtain ⟨k, hk⟩ : ∃ k, min pos c.nodes.length = c.before.length + (k + 1) :=
    ⟨min pos c.nodes.length - c.before.length - 1, by omega⟩
  rw [ovlSeekCursor, hk, moveCursor] at hseek
  split at hseek
  · cases hseek
  · cases hseek
    have htake : c.nodes.take (c.before.length + (k + 1)) =
        c.before.map .entry ++ .cursor :: (c.after.take k).map .entry := by
      have hsplit : (c.before.map DirNode.entry ++ DirNode.cursor :: c.after.map .entry).take
          ((c.before.map DirNode.entry).length + (k + 1)) =
          c.before.map .entry ++ (DirNode.cursor :: c.after.map .entry).take (k + 1) :=
        take_length_add_append (k + 1)
      rw [length_map, take_succ_cons] at hsplit
      rw [CursorList.nodes, hsplit, map_take]
    dsimp only
    rw [htake, filterMap_append, filterMap_entry, filterMap_cons_none rfl,
      filterMap_entry, length_append, length_take]
    omega

/-! ## What the steps keep -/

/-- What is kept besides. -/
structure StaysRight (M : List CacheEntry) (version : ℕ) (w : Reading) : Prop
    extends ReadsRight M w where
  version : ∀ c, w.file.cache = some c → w.file.cacheVersion = version
  start : w.start ≤ w.file.fPos
  unread : w.file.cache = none → w.start = w.file.fPos

section

variable {D : MergedDir} {version : ℕ} {w w' : Reading}

theorem StaysRight.initial : StaysRight M version Reading.initial where
  entries _ h := nomatch h
  position _ h := nomatch h
  pass := rfl
  version _ h := nomatch h
  start := Nat.le_refl 0
  unread _ := rfl

theorem StaysRight.reset (h : StaysRight M version w) :
    (if w.file.fPos = 0 then ovlDirReset version w.file else w.file) =
      { w.file with left := w.file.leftAtStart version } := by
  rw [ovlDirReset, DirFile.leftAtStart]
  by_cases hpos : w.file.fPos = 0
  · by_cases hne : version ≠ w.file.cacheVersion
    · have hnone : w.file.cache = none := by
        rw [Option.eq_none_iff_forall_ne_some]
        exact fun c hc => hne (h.version c hc).symm
      rw [if_pos hpos, if_pos hne, if_pos ⟨hpos, hne⟩, ← hnone]
    · rw [if_pos hpos, if_neg hne, if_neg fun hboth => hne hboth.2]
  · rw [if_neg hpos, if_neg fun hboth => hpos hboth.1]

theorem StaysRight.left (h : StaysRight M version w) (left : List CacheEntry) :
    StaysRight M version { w with file := { w.file with left := left } } :=
  ⟨⟨h.entries, h.position, h.pass⟩, h.version, h.start, h.unread⟩

theorem pass_of_prefix {n start : ℕ} (hn : n = before.length) :
    (((before ++ after).zipIdx.take n).drop start).filter shown =
      (before.zipIdx.drop start).filter shown := by
  have hlen : n = before.zipIdx.length := by rw [length_zipIdx, hn]
  rw [zipIdx_append, hlen, take_left]

theorem pass_append {start : ℕ} (hstart : start ≤ before.length) :
    ((before ++ after).zipIdx.drop start).filter shown =
      (before.zipIdx.drop start).filter shown ++ (after.zipIdx before.length).filter shown := by
  rw [zipIdx_append, Nat.zero_add, drop_append_of_le_length, filter_append]
  rwa [length_zipIdx]

variable {c : CursorList}

theorem StaysRight.pass_eq (h : StaysRight M version w) (hc : w.file.cache = some c) :
    w.pass = (c.before.zipIdx.drop w.start).filter shown := by
  rw [h.pass, ← h.entries c hc, pass_of_prefix (h.position c hc)]

section

variable {start : ℕ} {pass : List (CacheEntry × ℕ)} {left : List CacheEntry}
  (hM : before ++ after = M)
  (hpos : fPos = before.length) (hstart : start ≤ fPos)
  (hpass : pass = (before.zipIdx.drop start).filter shown)

include hM hpos hstart hpass

theorem read_fits (h : after.countP (!·.isWhiteout) ≤ room) :
    StaysRight M version ⟨⟨version, some (readdirLoop room fPos before after).2.1, left,
      (readdirLoop room fPos before after).1⟩, start,
      pass ++ (readdirLoop room fPos before after).2.2⟩ := by
  rw [readdirLoop_fits h]
  have hlen : fPos + after.length = (before ++ after).length := by rw [hpos, length_append]
  refine ⟨⟨?_, ?_, ?_⟩, fun _ _ => rfl, Nat.le_add_right_of_le hstart, nofun⟩
  · rintro c hc
    cases hc
    rw [← hM, append_nil]
  · rintro c hc
    cases hc
    exact hlen
  · dsimp only
    rw [← hM, ← append_nil (before ++ after), pass_of_prefix hlen,
      pass_append (hpos ▸ hstart), hpass, hpos]

theorem read_refuses (h : room < after.countP (!·.isWhiteout)) :
    ¬ ReadsRight M ⟨⟨version, some (readdirLoop room fPos before after).2.1, left,
      (readdirLoop room fPos before after).1⟩, start,
      pass ++ (readdirLoop room fPos before after).2.2⟩ := by
  obtain ⟨given, p, rest, hafter, hp, hloop⟩ : ∃ given p rest, after = given ++ p :: rest ∧
      p.isWhiteout = false ∧ readdirLoop room fPos before after = (fPos + 1 + given.length,
        ⟨before ++ (given ++ [p]), rest⟩, (given.zipIdx fPos).filter shown) :=
    readdirLoop_refuses h
  rw [hloop]
  intro hright
  have hlen : fPos + 1 + given.length = (before ++ (given ++ [p])).length := by
    rw [hpos, length_append, length_append, length_singleton]
    omega
  have hwhole : M = (before ++ (given ++ [p])) ++ rest := by
    rw [← hM, hafter, append_assoc, append_assoc, singleton_append]
  have hget := hright.pass
  dsimp only at hget
  rw [hwhole, pass_of_prefix hlen, pass_append (hpos ▸ hstart), ← hpass, zipIdx_append,
    filter_append, ← hpos] at hget
  have hlost := congrArg List.length (append_cancel_left hget)
  have hshown : ([p].zipIdx (fPos + given.length)).filter shown = [(p, fPos + given.length)] :=
    filter_cons_of_pos (by rw [shown_eq, hp]; rfl)
  rw [hshown, length_append, length_singleton] at hlost
  omega

end

/-! ### What the steps do -/

theorem StaysRight.readdir_cached (h : StaysRight M version w) (hc : w.file.cache = some c)
    (how : Merging) (room : ℕ) :
    w.step D version (.readdir how room) =
      some ⟨⟨version, some (readdirLoop room w.file.fPos c.before c.after).2.1,
        w.file.leftAtStart version, (readdirLoop room w.file.fPos c.before c.after).1⟩, w.start,
        w.pass ++ (readdirLoop room w.file.fPos c.before c.after).2.2⟩ := by
  rw [Reading.step]
  unfold ovlReaddir
  simp only [h.reset, hc, h.version c hc, Option.map_some]

theorem StaysRight.readdir_failed (h : StaysRight M version w) (hc : w.file.cache = none)
    {how : Merging} {code : ℕ} {list : List CacheEntry} (room : ℕ)
    (hread : D.readMerged (w.file.leftAtStart version) how = some (-(code + 1 : ℤ), list)) :
    w.step D version (.readdir how room) =
      some { w with file := { w.file with left := list } } := by
  have hres : (-(code + 1) : ℤ) ≠ 0 := by omega
  rw [Reading.step]
  unfold ovlReaddir
  simp only [h.reset, hc, hread, Option.bind_eq_bind, Option.bind_some]
  rw [if_pos hres]
  simp

theorem StaysRight.readdir_read (h : StaysRight M version w) (hc : w.file.cache = none)
    (room : ℕ) {list : List CacheEntry} (hlist : D.listing (w.file.leftAtStart version) = list) :
    w.step D version (.readdir .done room) = some ⟨⟨version,
      some (readdirLoop room w.file.fPos (list.take w.file.fPos) (list.drop w.file.fPos)).2.1, [],
      (readdirLoop room w.file.fPos (list.take w.file.fPos) (list.drop w.file.fPos)).1⟩, w.start,
      w.pass ++
        (readdirLoop room w.file.fPos (list.take w.file.fPos) (list.drop w.file.fPos)).2.2⟩ := by
  subst hlist
  rw [Reading.step]
  unfold ovlReaddir
  simp [h.reset, hc, MergedDir.readMerged, ovlSeekCursor_entries]

variable {origin : Origin}

theorem seekTarget_congr (offset : ℤ) (v : ℕ) (cache : Option CursorList) (left : List CacheEntry)
    (f : DirFile) :
    seekTarget offset origin ⟨v, cache, left, f.fPos⟩ = seekTarget offset origin f :=
  rfl

theorem StaysRight.llseek_stay (h : StaysRight M version w) {offset : ℤ}
    (hstay : ∀ pos, seekTarget offset origin w.file = some pos → pos = w.file.fPos) :
    w.step D version (.llseek offset origin) =
      some { w with file := { w.file with left := w.file.leftAtStart version } } := by
  rw [Reading.step]
  unfold ovlDirLlseek
  simp only [h.reset, seekTarget_congr]
  cases htarget : seekTarget offset origin w.file with
  | none => simp
  | some pos => simp [hstay pos htarget]

section

variable {offset : ℤ} {pos : ℕ} (h : StaysRight M version w)
  (htarget : seekTarget offset origin w.file = some pos) (hpos : pos ≠ w.file.fPos)

include h htarget hpos

theorem StaysRight.llseek_unread (hc : w.file.cache = none) :
    w.step D version (.llseek offset origin) =
      some ⟨⟨w.file.cacheVersion, none, w.file.leftAtStart version, pos⟩, pos, []⟩ := by
  rw [Reading.step]
  unfold ovlDirLlseek
  simp only [h.reset, seekTarget_congr, htarget, if_neg hpos, hc, Option.map_some]

theorem StaysRight.llseek_moved (hc : w.file.cache = some c) :
    w.step D version (.llseek offset origin) = (ovlSeekCursor c.nodes pos).map fun c' =>
      ⟨⟨version, some c', w.file.leftAtStart version, pos⟩, pos, []⟩ := by
  rw [Reading.step]
  unfold ovlDirLlseek
  simp only [h.reset, seekTarget_congr, htarget, if_neg hpos, hc, h.version c hc, Option.map_map,
    Function.comp_def]

end

theorem StaysRight.pass_unread (h : StaysRight M version w) (hle : w.file.fPos ≤ M.length) :
    w.pass = ((M.take w.file.fPos).zipIdx.drop w.start).filter shown := by
  have hlen : w.file.fPos = (M.take w.file.fPos).length := by
    rw [length_take, Nat.min_eq_left hle]
  have hsplit : (((M.take w.file.fPos ++ M.drop w.file.fPos).zipIdx.take w.file.fPos).drop
      w.start).filter shown = ((M.take w.file.fPos).zipIdx.drop w.start).filter shown :=
    pass_of_prefix hlen
  rw [take_append_drop] at hsplit
  rw [h.pass, hsplit]

theorem staysRight_moved {pos : ℕ} {left : List CacheEntry} (hM : c.before ++ c.after = M)
    (hpos : pos = c.before.length) :
    StaysRight M version ⟨⟨version, some c, left, pos⟩, pos, []⟩ where
  entries c' hc' := Option.some.inj hc' ▸ hM
  position c' hc' := Option.some.inj hc' ▸ hpos
  pass := by
    rw [drop_eq_nil_of_le (length_take_le _ _)]
    rfl
  version _ _ := rfl
  start := Nat.le_refl _
  unread := nofun

/-- **A step that fits keeps reading right.** -/
theorem StaysRight.step_fits (h : StaysRight (D.listing []) version w) {a : DirAction}
    (ha : Fits D version w.file a) :
    ∃ w', w.step D version a = some w' ∧ StaysRight (D.listing []) version w' := by
  cases a with
  | readdir how room =>
    cases hc : w.file.cache with
    | some c =>
      simp only [Fits, hc] at ha
      exact ⟨_, h.readdir_cached hc how room,
        read_fits (h.entries c hc) (h.position c hc) h.start (h.pass_eq hc) ha⟩
    | none =>
      cases how with
      | done =>
        simp only [Fits, hc] at ha
        obtain ⟨hleft, hle, hroom⟩ := ha
        have hlen : w.file.fPos = ((D.listing []).take w.file.fPos).length := by
          rw [length_take, Nat.min_eq_left hle]
        exact ⟨_, h.readdir_read hc room (congrArg _ hleft), read_fits (take_append_drop _ _) hlen
          h.start (h.pass_unread hle) hroom⟩
      | upperClosed | upperFails | lowerClosed =>
        exact ⟨_, h.readdir_failed hc room rfl, h.left _⟩
      | lowerFails =>
        simp only [Fits, hc] at ha
  | llseek offset origin =>
    by_cases hstay : ∀ pos, seekTarget offset origin w.file = some pos → pos = w.file.fPos
    · exact ⟨_, h.llseek_stay hstay, h.left _⟩
    · obtain ⟨pos, htarget, hpos⟩ : ∃ pos, seekTarget offset origin w.file = some pos ∧
          pos ≠ w.file.fPos := by
        simpa only [not_forall, exists_prop] using hstay
      cases hc : w.file.cache with
      | none =>
        refine ⟨_, h.llseek_unread htarget hpos hc, ⟨⟨nofun, nofun, ?_⟩, nofun, Nat.le_refl _,
          fun _ => rfl⟩⟩
        rw [drop_eq_nil_of_le (length_take_le _ _)]
        rfl
      | some c =>
        have hback : pos < c.before.length := by
          rw [← h.position c hc]
          exact Nat.lt_of_le_of_ne (ha (by rw [hc]; exact Option.some_ne_none c) pos htarget) hpos
        refine ⟨⟨⟨version, some ⟨c.before.take pos, c.before.drop pos ++ c.after⟩,
          w.file.leftAtStart version, pos⟩, pos, []⟩, ?_, staysRight_moved ?_ ?_⟩
        · rw [h.llseek_moved htarget hpos hc, ovlSeekCursor_back hback, Option.map_some]
        · rw [← append_assoc, take_append_drop, h.entries c hc]
        · rw [length_take, Nat.min_eq_left hback.le]

/-- **A step that does not fit does not keep it.** -/
theorem StaysRight.step_unfit (h : StaysRight (D.listing []) version w) {a : DirAction}
    (ha : ¬ Fits D version w.file a) (hstep : w.step D version a = some w') :
    ¬ ReadsRight (D.listing []) w' := by
  cases a with
  | readdir how room =>
    cases hc : w.file.cache with
    | some c =>
      simp only [Fits, hc, not_le] at ha
      rw [h.readdir_cached hc] at hstep
      cases hstep
      exact read_refuses (h.entries c hc) (h.position c hc) h.start (h.pass_eq hc) ha
    | none =>
      cases how with
      | done =>
        simp only [Fits, hc] at ha
        rw [h.readdir_read hc room rfl] at hstep
        cases hstep
        by_cases hleft : w.file.leftAtStart version = []
        · rw [hleft]
          by_cases hle : w.file.fPos ≤ (D.listing []).length
          · have hlen : w.file.fPos = ((D.listing []).take w.file.fPos).length := by
              rw [length_take, Nat.min_eq_left hle]
            exact read_refuses (take_append_drop _ _) hlen h.start (h.pass_unread hle)
              (not_le.mp fun hroom => ha ⟨hleft, hle, hroom⟩)
          · -- the cursor is at the end, and `f_pos` after it
            rw [drop_of_length_le (not_le.mp hle).le, take_of_length_le (not_le.mp hle).le]
            intro hright
            have hpos := hright.position ⟨D.listing [], []⟩ (by simp [readdirLoop])
            simp only [readdirLoop] at hpos
            exact hle hpos.le
        · -- the entries that were left are on the list too
          intro hright
          have hentries := hright.entries _ rfl
          rw [readdirLoop_entries, take_append_drop] at hentries
          exact hleft (MergedDir.left_of_listing hentries)
      | upperClosed | upperFails | lowerClosed =>
        simp [Fits, hc] at ha
      | lowerFails =>
        rw [Reading.step] at hstep
        unfold ovlReaddir at hstep
        simp [h.reset, hc, MergedDir.readMerged] at hstep
  | llseek offset origin =>
    obtain ⟨hread, hfar⟩ := Classical.not_imp.mp ha
    simp only [not_forall, not_le] at hfar
    obtain ⟨pos, htarget, hfar⟩ := hfar
    obtain ⟨c, hc⟩ := Option.ne_none_iff_exists'.mp hread
    rw [h.llseek_moved htarget hfar.ne' hc] at hstep
    obtain ⟨c', hseek, rfl⟩ := Option.map_eq_some_iff.mp hstep
    intro hright
    have hpos := hright.position c' rfl
    have hshort := ovlSeekCursor_forward (h.position c hc ▸ hfar) hseek
    exact hshort.ne' hpos

end

/-! ## Runs -/

section

variable {D : MergedDir} {version : ℕ}

theorem Reading.run_concat (acts : List DirAction) (a : DirAction) :
    Reading.run D version (acts ++ [a]) =
      (Reading.run D version acts).bind fun w => w.step D version a := by
  rw [Reading.run, foldlM_append]
  exact Option.bind_congr fun w _ => by simp

def AllFit (D : MergedDir) (version : ℕ) (acts : List DirAction) : Prop :=
  ∀ pre a w, pre ++ [a] <+: acts → Reading.run D version pre = some w → Fits D version w.file a

def AlwaysRight (D : MergedDir) (version : ℕ) (acts : List DirAction) : Prop :=
  ∀ pre, pre <+: acts → ∃ w, Reading.run D version pre = some w ∧ ReadsRight (D.listing []) w

theorem AllFit.run {acts : List DirAction} (h : AllFit D version acts) :
    ∃ w, Reading.run D version acts = some w ∧ StaysRight (D.listing []) version w := by
  induction acts using List.reverseRecOn with
  | nil => exact ⟨_, rfl, .initial⟩
  | append_singleton acts a ih =>
    obtain ⟨w, hrun, hw⟩ := ih fun pre b w hpre => h pre b w (hpre.trans (prefix_append _ _))
    rw [Reading.run_concat, hrun, Option.bind_some]
    exact hw.step_fits (h acts a w (prefix_refl _) hrun)

theorem AlwaysRight.fits {acts : List DirAction} (h : AlwaysRight D version acts) :
    AllFit D version acts := by
  induction acts using List.reverseRecOn with
  | nil =>
    intro pre a w hpre
    exact absurd (prefix_nil.mp hpre) (append_ne_nil_of_right_ne_nil _ (by simp))
  | append_singleton acts a ih =>
    have hfit := ih fun pre hpre => h pre (hpre.trans (prefix_append _ _))
    intro pre b w hpre hrun
    rcases prefix_concat_iff.mp hpre with heq | hpre
    · obtain ⟨rfl, hlast⟩ := append_inj' heq rfl
      cases hlast
      obtain ⟨w₀, hrun₀, hw₀⟩ := hfit.run
      obtain rfl := Option.some.inj (hrun.symm.trans hrun₀)
      obtain ⟨w', hrun', hright⟩ := h _ (prefix_refl _)
      rw [Reading.run_concat, hrun, Option.bind_some] at hrun'
      by_contra hunfit
      exact hw₀.step_unfit hunfit hrun' hright
    · exact hfit pre b w hpre hrun

/-- **Reading a directory in parts is right in exactly the runs whose steps all fit.** -/
theorem resumed_reads (D : MergedDir) (version : ℕ) (acts : List DirAction) :
    AlwaysRight D version acts ↔ AllFit D version acts := by
  refine ⟨AlwaysRight.fits, fun h pre hpre => ?_⟩
  have hfit : AllFit D version pre := fun pre' a w hpre' => h pre' a w (hpre'.trans hpre)
  obtain ⟨w, hrun, hw⟩ := hfit.run
  exact ⟨w, hrun, hw.toReadsRight⟩

/-- The filler refuses `b`, which is not given in the next call. -/
theorem refused_lost : ¬ AlwaysRight ⟨[], [⟨[97], 4, 2, false⟩, ⟨[98], 8, 3, false⟩], []⟩ 0
    [.readdir .done 1, .readdir .done 5] := by
  intro h
  obtain ⟨w, hrun, hright⟩ := h _ (List.prefix_refl _)
  obtain rfl := Option.some.inj (hrun.symm.trans (show _ = some ⟨⟨0,
    some ⟨[⟨[97], 4, 2, false⟩, ⟨[98], 8, 3, false⟩], []⟩, [], 2⟩, 0, [(⟨[97], 4, 2, false⟩, 0)]⟩
    from rfl))
  have hwhole := hright.whole rfl rfl rfl
  revert hwhole
  decide

end

end Overlayfs
