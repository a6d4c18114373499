import Mathlib.Data.List.Perm.Basic
import ReadingComment.Overlayfs.ReadMerged

/-!
# What the merged listing has (`overlayfs.c`)

While the lower directory is read, the list begins with the entries that were read from it; behind
`middle` are those of the upper directory whose names have not come yet. `ovl_dir_read_merged` does
what it is for unless

* a whiteout of the upper directory is not listed as a link, or the lookup of it does not say that
  it is one;
* the reading of the lower directory fails after it was opened: the entries are freed with `middle`
  among them, which is on the stack;
* the lower directory cannot be opened, and the entries of the upper one stay on the list.
-/

namespace Overlayfs

open List

open Lib (Bytes SearchTree)
open ListNode (entry middle)

/-! ## Whiteouts -/

/-- An entry after `ovl_dir_mark_whiteouts`. -/
def marked (lookup : Bytes → Option Bool) (p : CacheEntry) : CacheEntry :=
  if p.type = dtLnk then { p with isWhiteout := (lookup p.name).getD p.isWhiteout } else p

variable {lookup : Bytes → Option Bool}

theorem marked_name (p : CacheEntry) : (marked lookup p).name = p.name := by
  rw [marked]
  split
  · rfl
  · rfl

theorem ovlDirMarkWhiteouts_links {A B : List CacheEntry} (hA : ∀ p ∈ A, p.type = dtLnk)
    (hB : ∀ p ∈ B, p.type ≠ dtLnk) :
    ovlDirMarkWhiteouts lookup ((A ++ B).map entry) = ((A ++ B).map (marked lookup)).map entry := by
  induction A with
  | nil =>
    have hsame : B.map (marked lookup) = B :=
      (map_congr_left fun p hp => if_neg (hB p hp)).trans (map_id' B)
    rw [nil_append, hsame]
    cases B with
    | nil => rfl
    | cons p B =>
      rw [map_cons, ovlDirMarkWhiteouts, if_pos (hB p mem_cons_self)]
  | cons p A ih =>
    have hp : p.type = dtLnk := hA p mem_cons_self
    have htail := ih fun q hq => hA q (mem_cons_of_mem _ hq)
    rw [cons_append, map_cons, ovlDirMarkWhiteouts, if_neg (not_not.mpr hp), htail,
      map_cons, map_cons, marked, if_pos hp]
    split
    · rename_i hlookup
      rw [hlookup, Option.getD_none]
    · rename_i hlookup
      rw [hlookup, Option.getD_some]

/-- The entries of the upper directory once the whiteouts are marked. -/
def markedCache (lookup : Bytes → Option Bool) (U : List DirEnt) : List CacheEntry :=
  (upperCache U).map (marked lookup)

theorem mark_upperCache (U : List DirEnt) :
    ovlDirMarkWhiteouts lookup ((upperCache U).map entry) = (markedCache lookup U).map entry := by
  rw [markedCache, upperCache, map_append]
  refine ovlDirMarkWhiteouts_links ?_ ?_
  · intro p hp
    obtain ⟨d, hd, rfl⟩ := mem_map.mp hp
    exact of_decide_eq_true (mem_filter.mp (mem_reverse.mp hd)).2
  · intro p hp
    obtain ⟨d, hd, rfl⟩ := mem_map.mp hp
    exact of_decide_eq_true (mem_filter.mp hd).2

theorem markedCache_perm (U : List DirEnt) :
    (markedCache lookup U).Perm (U.map fun d => marked lookup (ovlCacheEntryNew d)) := by
  rw [markedCache, upperCache, map_map]
  refine List.Perm.map _ (((reverse_perm _).append_right _).trans ?_)
  simpa using filter_append_perm (fun d : DirEnt => decide (d.type = dtLnk)) U

theorem markedCache_names (U : List DirEnt) :
    ((markedCache lookup U).map CacheEntry.name).Perm (U.map DirEnt.name) := by
  refine ((markedCache_perm U).map CacheEntry.name).trans (List.Perm.of_eq ?_)
  rw [map_map]
  exact map_congr_left fun d _ => marked_name _

/-! ## Entries that are moved -/

namespace ListNode

theorem addBefore_middle (n : ListNode) (A : List CacheEntry) (l : List ListNode) :
    addBefore n (A.map entry ++ middle :: l) = A.map entry ++ n :: middle :: l := by
  induction A with
  | nil => rfl
  | cons p A ih => rw [map_cons, cons_append, addBefore, ih]; rfl

theorem eraseP_named {B : List CacheEntry} (h : (B.map CacheEntry.name).Nodup) (name : Bytes) :
    (B.map entry).eraseP (isNamed name) =
      (B.filter fun p => p.name ≠ name).map entry := by
  induction B with
  | nil => rfl
  | cons p B ih =>
    obtain ⟨hp, hB⟩ := nodup_cons.mp h
    rw [map_cons]
    by_cases hname : p.name = name
    · rw [eraseP_cons_of_pos (by simpa [isNamed] using hname), filter_cons_of_neg (by simpa)]
      have hall : B.filter (fun q => decide (q.name ≠ name)) = B := by
        refine filter_eq_self.mpr fun q hq => ?_
        rw [decide_eq_true_eq]
        exact fun heq => hp (hname ▸ heq ▸ mem_map_of_mem hq)
      rw [hall]
    · rw [eraseP_cons_of_neg (by simpa [isNamed] using hname), ih hB,
        filter_cons_of_pos (by simpa), map_cons]

theorem moveBefore_middle {A B : List CacheEntry} {q : CacheEntry} {name : Bytes}
    (hA : ∀ p ∈ A, p.name ≠ name) (hB : (B.map CacheEntry.name).Nodup)
    (hq : B.find? (fun p => p.name = name) = some q) :
    moveBefore name (A.map entry ++ middle :: B.map entry) =
      (A ++ [q]).map entry ++ middle :: (B.filter fun p => p.name ≠ name).map entry := by
  have hnone : (A.map entry).find? (isNamed name) = none := by
    rw [find?_eq_none]
    intro n hn
    obtain ⟨p, hp, rfl⟩ := mem_map.mp hn
    simpa [isNamed] using hA p hp
  have hfind : (A.map entry ++ middle :: B.map entry).find? (isNamed name) = some (entry q) := by
    rw [find?_append, hnone, Option.none_or, find?_cons_of_neg (by simp [isNamed]),
      find?_map]
    simpa [Function.comp_def, isNamed] using hq
  have herase : (A.map entry ++ middle :: B.map entry).eraseP (isNamed name) =
      A.map entry ++ middle :: (B.filter fun p => p.name ≠ name).map entry := by
    rw [eraseP_append_right _ (find?_eq_none.mp hnone),
      eraseP_cons_of_neg (by simp [isNamed]), eraseP_named hB]
  rw [moveBefore, hfind]
  dsimp only
  rw [herase, addBefore_middle, map_append, append_assoc]
  rfl

end ListNode

/-! ## The lower directory -/

section

variable (K : List CacheEntry)

def pick (d : DirEnt) : CacheEntry :=
  (K.find? fun p => p.name = d.name).getD (ovlCacheEntryNew d)

def unlisted (L : List DirEnt) : List CacheEntry :=
  K.filter fun p => p.name ∉ L.map DirEnt.name

/-- The list once some entries of the lower directory were read. -/
structure LowerRead (t : SearchTree Bytes) (pre : List DirEnt) (rdd : ReaddirData) : Prop where
  root : rdd.root = t
  list : rdd.list = (pre.map (pick K)).map entry ++ middle :: (unlisted K pre).map entry

theorem pick_name (d : DirEnt) : (pick K d).name = d.name := by
  rw [pick]
  cases hfind : K.find? fun p => p.name = d.name with
  | none => rfl
  | some q =>
    have hname := find?_some hfind
    exact of_decide_eq_true hname

theorem unlisted_concat (pre : List DirEnt) (d : DirEnt) :
    unlisted K (pre ++ [d]) = (unlisted K pre).filter fun p => p.name ≠ d.name := by
  rw [unlisted, unlisted, filter_filter]
  refine filter_congr fun p _ => ?_
  rw [map_append, map_singleton, ← Bool.decide_and]
  exact decide_eq_decide.mpr (by rw [mem_append, mem_singleton, not_or, and_comm])

variable {K} {t : SearchTree Bytes}

theorem find?_unlisted {pre : List DirEnt} {d : DirEnt} (hd : d.name ∉ pre.map DirEnt.name) :
    (unlisted K pre).find? (fun p => p.name = d.name) = K.find? fun p => p.name = d.name := by
  rw [unlisted, find?_filter]
  refine congrArg (List.find? · K) (funext fun p => ?_)
  by_cases hname : p.name = d.name
  · rw [hname]
    simpa using hd
  · simp [hname]

theorem ovlFillLower_fills (R : RealDir) (ht : t.Ordered compare)
    (hnames : ∀ n, n ∈ t.inorder ↔ n ∈ K.map CacheEntry.name)
    (hK : (K.map CacheEntry.name).Nodup) :
    R.Fills ovlFillLower (LowerRead K t) fun d => d.name ∉ K.map CacheEntry.name where
  congr h hroot hlist := ⟨hroot.trans h.root, hlist.trans h.list⟩
  fill := by
    intro pre d rest rdd memory hlisting h herr
    have hd : d ∈ R.listing := by
      rw [hlisting]
      exact mem_append_right _ mem_cons_self
    have hpre : d.name ∉ pre.map DirEnt.name := by
      have hnodup := R.nodup
      rw [hlisting, map_append, nodup_append] at hnodup
      exact fun hmem => hnodup.2.2 _ hmem _ (mem_map_of_mem mem_cons_self) rfl
    have hdir : direction d.name = compare d.name := funext (direction_eq (R.noNul d hd))
    by_cases hmem : d.name ∈ K.map CacheEntry.name
    · -- the entry of the upper directory is moved
      have hfind : rdd.root.find (direction d.name) = some d.name := by
        rw [hdir, h.root]
        exact (SearchTree.find_eq_some ht).mpr ⟨rfl, (hnames _).mpr hmem⟩
      obtain ⟨q, hq⟩ : ∃ q, K.find? (fun p => p.name = d.name) = some q := by
        obtain ⟨p, hp, hname⟩ := mem_map.mp hmem
        exact Option.isSome_iff_exists.mp (find?_isSome.mpr ⟨p, hp, decide_eq_true hname⟩)
      refine .inl ⟨⟨rdd.root, ListNode.moveBefore d.name rdd.list, rdd.count + 1, rdd.err⟩, ?_,
        herr,
        rfl, ⟨h.root, ?_⟩, fun _ hstops => hstops hmem⟩
      · simp only [ovlFillLower, hfind, herr, ne_eq, not_true_eq_false, decide_false]
      · dsimp only
        have hread : ∀ p ∈ pre.map (pick K), p.name ≠ d.name := by
          intro p hp
          obtain ⟨x, hx, rfl⟩ := mem_map.mp hp
          rw [pick_name]
          exact fun heq => hpre (heq ▸ mem_map_of_mem hx)
        have hrest : ((unlisted K pre).map CacheEntry.name).Nodup :=
          hK.sublist (filter_sublist.map _)
        rw [h.list, unlisted_concat,
          ListNode.moveBefore_middle hread hrest ((find?_unlisted hpre).trans hq),
          map_append (f := pick K), map_singleton, pick.eq_1 K d, hq, Option.getD_some]
    · have hnone : ∀ p ∈ K, p.name ≠ d.name :=
        fun p hp heq => hmem (heq ▸ mem_map_of_mem hp)
      have hfind : rdd.root.find (direction d.name) = none := by
        rw [hdir, h.root]
        exact (SearchTree.find_eq_none ht).mpr ((hnames _).not.mpr hmem)
      cases memory with
      | false =>
        refine .inr ⟨rfl, ⟨rdd.root, rdd.list, rdd.count + 1, noMemory⟩, ?_, rfl,
          ⟨h.root, h.list⟩, .inr ⟨Int.negSucc_lt_zero 11, hmem⟩⟩
        simp only [ovlFillLower, hfind, Bool.false_eq_true, if_false]
      | true =>
        refine .inl ⟨⟨rdd.root, ListNode.addBefore (entry (ovlCacheEntryNew d)) rdd.list,
          rdd.count + 1, rdd.err⟩, ?_, herr, rfl, ⟨h.root, ?_⟩, nofun⟩
        · simp only [ovlFillLower, hfind, if_true, herr, ne_eq, not_true_eq_false, decide_false]
        · have hpick : pick K d = ovlCacheEntryNew d := by
            rw [pick, find?_eq_none.mpr fun p hp => by simpa using hnone p hp, Option.getD_none]
          have hrest : (unlisted K pre).filter (fun p => decide (p.name ≠ d.name)) =
              unlisted K pre := by
            refine filter_eq_self.mpr fun p hp => ?_
            exact decide_eq_true (hnone p (mem_of_mem_filter hp))
          dsimp only
          rw [h.list, ListNode.addBefore_middle, unlisted_concat, hrest, map_append,
            map_append, append_assoc, map_singleton, hpick]
          rfl

end

/-! ## The merged listing -/

/-- The cache has each name of the union once, with the entry of the upper directory if it has the
name, and the whiteouts are marked. -/
structure Merged (U L : List DirEnt) (whiteout : Bytes → Bool) (cache : List CacheEntry) :
    Prop where
  nodup : (cache.map CacheEntry.name).Nodup
  names : ∀ name, name ∈ cache.map CacheEntry.name ↔
    name ∈ U.map DirEnt.name ∨ name ∈ L.map DirEnt.name
  upper : ∀ d ∈ U, ⟨d.name, d.type, d.ino, whiteout d.name⟩ ∈ cache
  lower : ∀ d ∈ L, d.name ∉ U.map DirEnt.name → ovlCacheEntryNew d ∈ cache

def mergedCache (K : List CacheEntry) (L : List DirEnt) : List CacheEntry :=
  L.map (pick K) ++ unlisted K L

section

variable {K : List CacheEntry} {L : List DirEnt}

theorem mergedCache_nodup (hK : (K.map CacheEntry.name).Nodup) (hL : (L.map DirEnt.name).Nodup) :
    ((mergedCache K L).map CacheEntry.name).Nodup := by
  have hpick : (L.map (pick K)).map CacheEntry.name = L.map DirEnt.name := by
    rw [map_map]
    exact map_congr_left fun d _ => pick_name K d
  rw [mergedCache, map_append, hpick]
  refine nodup_append.mpr ⟨hL, hK.sublist (filter_sublist.map _), ?_⟩
  rintro a ha b hb rfl
  obtain ⟨p, hp, rfl⟩ := mem_map.mp hb
  exact of_decide_eq_true (mem_filter.mp hp).2 ha

theorem mem_mergedCache_of_mem {p : CacheEntry} (hK : (K.map CacheEntry.name).Nodup) (hp : p ∈ K) :
    p ∈ mergedCache K L := by
  rw [mergedCache, mem_append]
  by_cases hname : p.name ∈ L.map DirEnt.name
  · obtain ⟨d, hd, heq⟩ := mem_map.mp hname
    refine .inl (mem_map.mpr ⟨d, hd, ?_⟩)
    obtain ⟨q, hq⟩ : ∃ q, K.find? (fun p => p.name = d.name) = some q :=
      Option.isSome_iff_exists.mp (find?_isSome.mpr ⟨p, hp, decide_eq_true heq.symm⟩)
    have hsame := find?_some hq
    rw [decide_eq_true_eq] at hsame
    rw [pick, hq, Option.getD_some]
    exact inj_on_of_nodup_map hK (mem_of_find?_eq_some hq) hp (hsame.trans heq)
  · exact .inr (mem_filter.mpr ⟨hp, decide_eq_true hname⟩)

theorem mem_mergedCache_new {d : DirEnt} (hd : d ∈ L) (hname : d.name ∉ K.map CacheEntry.name) :
    ovlCacheEntryNew d ∈ mergedCache K L := by
  have hnone : K.find? (fun p => p.name = d.name) = none := by
    refine find?_eq_none.mpr fun p hp => ?_
    rw [decide_eq_true_eq]
    exact fun heq => hname (heq ▸ mem_map_of_mem hp)
  refine mem_append_left _ (mem_map.mpr ⟨d, hd, ?_⟩)
  rw [pick, hnone, Option.getD_none]

theorem mergedCache_names (name : Bytes) : name ∈ (mergedCache K L).map CacheEntry.name ↔
    name ∈ K.map CacheEntry.name ∨ name ∈ L.map DirEnt.name := by
  constructor
  · intro h
    obtain ⟨p, hp, rfl⟩ := mem_map.mp h
    rcases mem_append.mp hp with hp | hp
    · obtain ⟨d, hd, rfl⟩ := mem_map.mp hp
      rw [pick_name]
      exact .inr (mem_map_of_mem hd)
    · exact .inl (mem_map_of_mem (mem_of_mem_filter hp))
  · intro h
    by_cases hlisted : name ∈ L.map DirEnt.name
    · obtain ⟨d, hd, rfl⟩ := mem_map.mp hlisted
      exact mem_map.mpr
        ⟨pick K d, mem_append_left _ (mem_map_of_mem hd), pick_name K d⟩
    · obtain ⟨p, hp, rfl⟩ := mem_map.mp (h.resolve_right hlisted)
      exact mem_map_of_mem
        (mem_append_right _ (mem_filter.mpr ⟨hp, decide_eq_true hlisted⟩))

end

/-- Every whiteout of the directory is listed as a link, and looked up. -/
def MarksAll (U : List DirEnt) (whiteout : Bytes → Bool) (lookup : Bytes → Option Bool) : Prop :=
  ∀ d ∈ U, whiteout d.name = true → d.type = dtLnk ∧ lookup d.name = some true

theorem marked_new {d : DirEnt} {whiteout : Bytes → Bool}
    (hsound : ∀ name, lookup name = some true → whiteout name = true) :
    marked lookup (ovlCacheEntryNew d) = ⟨d.name, d.type, d.ino, whiteout d.name⟩ ↔
      (whiteout d.name = true → d.type = dtLnk ∧ lookup d.name = some true) := by
  rw [marked]
  by_cases hlnk : d.type = dtLnk
  · simp only [ovlCacheEntryNew, true_and, hlnk]
    cases hlookup : lookup d.name with
    | none => simp
    | some b =>
      cases b with
      | true => simp [hsound _ hlookup]
      | false => simp
  · simp [ovlCacheEntryNew, hlnk]

/-- **The merged cache is right if the whiteouts can be told.** -/
theorem merged_iff {U L : List DirEnt} {whiteout : Bytes → Bool}
    (hU : (U.map DirEnt.name).Nodup) (hL : (L.map DirEnt.name).Nodup)
    (hsound : ∀ name, lookup name = some true → whiteout name = true) :
    Merged U L whiteout (mergedCache (markedCache lookup U) L) ↔ MarksAll U whiteout lookup := by
  have hperm : ((markedCache lookup U).map CacheEntry.name).Perm (U.map DirEnt.name) :=
    markedCache_names U
  have hnodup := mergedCache_nodup (hperm.nodup_iff.mpr hU) hL
  have hmem : ∀ d ∈ U, marked lookup (ovlCacheEntryNew d) ∈ mergedCache (markedCache lookup U) L :=
    fun d hd => mem_mergedCache_of_mem (hperm.nodup_iff.mpr hU)
      ((markedCache_perm U).mem_iff.mpr (mem_map_of_mem hd))
  constructor
  · intro h d hd
    refine (marked_new hsound).mp ?_
    exact inj_on_of_nodup_map hnodup (hmem d hd) (h.upper d hd) (marked_name _)
  · intro h
    refine ⟨hnodup, fun name => ?_, fun d hd => ?_, fun d hd hname => ?_⟩
    · rw [mergedCache_names, hperm.mem_iff]
    · rw [← (marked_new hsound).mpr (h d hd)]
      exact hmem d hd
    · exact mem_mergedCache_new hd (hperm.mem_iff.not.mpr hname)

/-! ## `ovl_dir_read_merged` -/

def upperListing (upper : Option UpperDir) : List DirEnt :=
  (upper.map fun U => U.listing).getD []

def upperWhiteout (upper : Option UpperDir) (name : Bytes) : Bool :=
  upper.any fun U => U.whiteout name

def upperLookup (upper : Option UpperDir) (name : Bytes) : Option Bool :=
  upper.bind fun U => U.lookup name

/-- Reading the upper directory fails. An entry for which there is no memory is read again. -/
def UpperFails (upper : Option UpperDir) : Prop :=
  ∃ U ∈ upper, U.toRealDir.Fails fun _ => False

/-- Reading the lower directory fails. There has to be memory for the entries that the upper
directory does not have. -/
def LowerFails (upper : Option UpperDir) (lower : RealDir) : Prop :=
  lower.Fails fun d => d.name ∉ (upperListing upper).map DirEnt.name

/-- The directories are merged; or reading one of them fails, the list is left empty, and nothing
but entries is freed. -/
def MergesRight (upper : Option UpperDir) (lower : RealDir)
    (result : Option (Except BadFree (ℤ × List ListNode))) : Prop :=
  (UpperFails upper ∨ LowerFails upper lower) ∧ (∃ err < 0, result = some (.ok (err, []))) ∨
  ¬ (UpperFails upper ∨ LowerFails upper lower) ∧
    ∃ cache, result = some (.ok (0, cache.map entry)) ∧
    Merged (upperListing upper) lower.listing (upperWhiteout upper) cache

/-- The upper directory cannot be read, or it has nothing and the lower one cannot be opened, or the
lower one is read and the whiteouts can be told. -/
def CanMerge (upper : Option UpperDir) (lower : RealDir) : Prop :=
  UpperFails upper ∨ lower.openErr ≠ none ∧ upperListing upper = [] ∨
    ¬ LowerFails upper lower ∧
      MarksAll (upperListing upper) (upperWhiteout upper) (upperLookup upper)

/-- What is done after the upper directory was read. -/
structure UpperDone (upper : Option UpperDir) (rdd : ReaddirData) : Prop where
  ordered : rdd.root.Ordered compare
  names : ∀ n, n ∈ rdd.root.inorder ↔ n ∈ (upperListing upper).map DirEnt.name
  list : rdd.list = (markedCache (upperLookup upper) (upperListing upper)).map entry

section

variable {upper : Option UpperDir} {lower : RealDir} {rdd : ReaddirData} {fuel : ℕ}

theorem upperListing_nodup : ((upperListing upper).map DirEnt.name).Nodup := by
  cases upper with
  | none => exact nodup_nil
  | some U => exact U.nodup

theorem upperLookup_sound (name : Bytes) (h : upperLookup upper name = some true) :
    upperWhiteout upper name = true := by
  cases upper with
  | none => cases h
  | some U => exact U.sound name h

theorem UpperDone.readLower (h : UpperDone upper rdd) (hfuel : lower.size < fuel) :
    (∃ code, lower.openErr = some code ∧
      readLower lower fuel rdd = some (.ok (-(code + 1), rdd.list))) ∨
    lower.openErr = none ∧
      (LowerFails upper lower ∧ readLower lower fuel rdd = some (.error .middle) ∨
        ¬ LowerFails upper lower ∧ readLower lower fuel rdd = some (.ok (0, (mergedCache
          (markedCache (upperLookup upper) (upperListing upper)) lower.listing).map entry))) := by
  have hperm : ((markedCache (upperLookup upper) (upperListing upper)).map CacheEntry.name).Perm
      ((upperListing upper).map DirEnt.name) := markedCache_names _
  have hfills :=
    ovlFillLower_fills (K := markedCache (upperLookup upper) (upperListing upper)) lower
    h.ordered (fun n => (h.names n).trans hperm.mem_iff.symm)
    (hperm.nodup_iff.mpr upperListing_nodup)
  have hstops : (fun d : DirEnt => d.name ∉ (markedCache (upperLookup upper)
      (upperListing upper)).map CacheEntry.name) =
      fun d => d.name ∉ (upperListing upper).map DirEnt.name :=
    funext fun d => propext hperm.mem_iff.not
  rw [hstops] at hfills
  have hstart : LowerRead (markedCache (upperLookup upper) (upperListing upper)) rdd.root []
      { rdd with list := middle :: rdd.list } := by
    refine ⟨rfl, ?_⟩
    have hall : unlisted (markedCache (upperLookup upper) (upperListing upper)) [] =
        markedCache (upperLookup upper) (upperListing upper) :=
      filter_eq_self.mpr fun _ _ => decide_eq_true not_mem_nil
    dsimp only
    rw [h.list, hall]
    rfl
  rcases hfills.ovlDirRead hstart hfuel with ⟨code, hopen, hread⟩ | ⟨hopen, hread⟩
  · refine .inl ⟨code, hopen, ?_⟩
    rw [Overlayfs.readLower, hread]
    simp only [Option.map_some, Except.map, erase_cons_head]
  · refine .inr ⟨hopen, ?_⟩
    rcases hread with ⟨hfails, err, pre, rdd', -, hinv, hread⟩ | ⟨hgood, rdd', hinv, hread⟩
    · refine .inl ⟨.inr hfails, ?_⟩
      have hmem : middle ∈ rdd'.list := by
        rw [hinv.list]
        exact mem_append_right _ mem_cons_self
      rw [Overlayfs.readLower, hread, ovlCacheFree, if_pos hmem]
      rfl
    · refine .inr ⟨fun hfails => hfails.elim (fun hne => hne hopen) hgood, ?_⟩
      have hnot : ∀ A : List CacheEntry, middle ∉ A.map entry := by
        intro A hmem
        obtain ⟨p, -, hp⟩ := mem_map.mp hmem
        cases hp
      rw [Overlayfs.readLower, hread]
      simp only [Option.map_some, Except.map]
      rw [hinv.list, erase_append_right _ (hnot _), erase_cons_head, mergedCache,
        map_append]

theorem UpperDone.right_iff (h : UpperDone upper rdd) (hupper : ¬ UpperFails upper)
    (hfuel : lower.size < fuel) :
    MergesRight upper lower (Overlayfs.readLower lower fuel rdd) ↔ CanMerge upper lower := by
  rw [MergesRight, CanMerge]
  simp only [hupper, false_or]
  rcases h.readLower hfuel with ⟨code, hopen, hread⟩ | ⟨hopen, ⟨hfails, hread⟩ | ⟨hgood, hread⟩⟩
  · have hfails : LowerFails upper lower := .inl (by rw [hopen]; exact Option.some_ne_none code)
    simp only [hfails, hopen, hread, h.list, true_and, not_true_eq_false, false_and, or_false,
      ne_eq,
      reduceCtorEq, not_false_eq_true, Option.some.injEq, Except.ok.injEq, Prod.mk.injEq,
      map_eq_nil_iff]
    constructor
    · rintro ⟨err, -, -, hnil⟩
      have hperm : (markedCache (upperLookup upper) (upperListing upper)).Perm _ :=
        markedCache_perm _
      rw [hnil] at hperm
      exact map_eq_nil_iff.mp (nil_perm.mp hperm)
    · intro hnil
      rw [hnil]
      exact ⟨-(code + 1), by omega, rfl, rfl⟩
  · simp [hfails, hopen, hread]
  · simp only [hgood, hopen, hread, false_and, false_or, not_false_eq_true, true_and, ne_eq,
      not_true_eq_false, Option.some.injEq, Except.ok.injEq, Prod.mk.injEq]
    rw [← merged_iff upperListing_nodup lower.nodup upperLookup_sound]
    constructor
    · rintro ⟨cache, hcache, hmerged⟩
      rwa [map_injective_iff.mpr (fun _ _ => ListNode.entry.inj) hcache]
    · exact fun hmerged => ⟨_, rfl, hmerged⟩

end

/-- **When the listings are merged.** -/
theorem ovl_dir_read_merged_iff (rb : RbInsertColor) (upper : Option UpperDir) (lower : RealDir)
    (fuel : ℕ) (hupper : ∀ U ∈ upper, U.toRealDir.size < fuel) (hlower : lower.size < fuel) :
    MergesRight upper lower (ovlDirReadMerged rb upper lower fuel) ↔ CanMerge upper lower := by
  cases upper with
  | none =>
    have hdone : UpperDone none ⟨.leaf, [], 0, 0⟩ := ⟨List.Pairwise.nil, fun _ => Iff.rfl, rfl⟩
    exact hdone.right_iff (fun ⟨_, h, _⟩ => nomatch h) hlower
  | some U =>
    have hstart : UpperRead [] ⟨.leaf, [], 0, 0⟩ := ⟨List.Pairwise.nil, fun _ => Iff.rfl, rfl⟩
    have hiff : UpperFails (some U) ↔ U.toRealDir.Fails fun _ => False := by
      simp [UpperFails]
    rw [ovlDirReadMerged]
    rcases (ovlFillUpper_fills rb U.toRealDir).ovlDirRead hstart (hupper U rfl) with
      ⟨code, hopen, hread⟩ | ⟨hopen, ⟨hfails, err, pre, rdd, herr, hinv, hread⟩ | ⟨hgood, rdd, hinv,
        hread⟩⟩
    · have hup : UpperFails (some U) :=
        hiff.mpr (.inl (by rw [hopen]; exact Option.some_ne_none code))
      have hneg : (-((code : ℤ) + 1)) < 0 := by omega
      rw [hread]
      simp only [Option.bind_some]
      rw [if_pos hneg.ne]
      exact iff_of_true (.inl ⟨.inl hup, _, hneg, rfl⟩) (.inl hup)
    · have hup : UpperFails (some U) := hiff.mpr (.inr hfails)
      have hfree : ovlCacheFree rdd.list = .ok [] := by
        rw [ovlCacheFree, if_neg]
        rw [hinv.list]
        intro hmem
        obtain ⟨p, -, hp⟩ := List.mem_map.mp hmem
        cases hp
      rw [hread, hfree]
      simp only [Except.map, Option.bind_some]
      rw [if_pos herr.ne]
      exact iff_of_true (.inl ⟨.inl hup, _, herr, rfl⟩) (.inl hup)
    · have hup : ¬ UpperFails (some U) := by
        rw [hiff]
        exact fun hfails => hfails.elim (fun hne => hne hopen) hgood
      have hdone : UpperDone (some U)
          { rdd with list := ovlDirMarkWhiteouts U.lookup rdd.list } :=
        ⟨hinv.ordered, hinv.names, by rw [hinv.list]; exact mark_upperCache _⟩
      rw [hread]
      simp only [Option.bind_some, ne_eq, not_true_eq_false, if_false]
      exact hdone.right_iff hup hlower

/-- An upper directory with a directory `a` and a whiteout `b`. -/
def upperAB : UpperDir where
  openErr := none
  creds := true
  listing := [⟨[97], 2, 4⟩, ⟨[98], 3, dtLnk⟩]
  noNul := by decide
  nodup := by decide
  readErr := none
  group _ := 0
  refusals _ := 0
  whiteout name := name = [98]
  lookup name := some (decide (name = [98]))
  sound _ h := Option.some.inj h

/-- A lower directory with `b` and `bc`, the reading of which may fail after the first. -/
def lowerB (readErr : Option (ℕ × ℕ)) : RealDir where
  openErr := none
  creds := true
  listing := [⟨[98], 7, 8⟩, ⟨[98, 99], 8, 8⟩]
  noNul := by decide
  nodup := by decide
  readErr := readErr
  group _ := 1
  refusals _ := 0

/-- Two directories that have the name `b` in common. -/
theorem ovl_dir_read_merged_ab :
    ((∀ U ∈ some upperAB, U.toRealDir.size < 5) ∧ (lowerB none).size < 5) ∧
      (MergesRight (some upperAB) (lowerB none)
          (ovlDirReadMerged ⟨id, fun _ => rfl⟩ (some upperAB) (lowerB none) 5) ↔
        CanMerge (some upperAB) (lowerB none)) :=
  ⟨⟨by decide, by decide⟩,
    ovl_dir_read_merged_iff _ _ _ 5 (by decide) (by decide)⟩

/-- The lower directory fails in the middle, and `middle` is freed. -/
theorem middle_freed : ¬ MergesRight (some upperAB) (lowerB (some (1, 4)))
    (ovlDirReadMerged ⟨id, fun _ => rfl⟩ (some upperAB) (lowerB (some (1, 4))) 5) := by
  have hfreed : ovlDirReadMerged ⟨id, fun _ => rfl⟩ (some upperAB) (lowerB (some (1, 4))) 5 =
      some (.error .middle) := rfl
  rw [hfreed]
  rintro (⟨-, err, -, h⟩ | ⟨-, cache, h, -⟩)
  · cases h
  · cases h

end Overlayfs
