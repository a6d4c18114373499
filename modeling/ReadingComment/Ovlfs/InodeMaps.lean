import ReadingComment.Ovlfs.InodeNumbers

/-!
# Mappings of inodes

The lists of mappings are sorted with `comp_ino_map`, which subtracts inode
numbers. The difference of two 32-bit numbers tells which one is the smaller only
as long as they are less than 2^31 apart, on the circle of these numbers: there
the function agrees with a comparison of the distances from the start of an arc.
While the numbers of each device stay in an arc, the lists stay sorted and a
mapping is found. Two numbers that are 2^31 apart are each before the other.
-/

namespace Ovlfs

open Function Lib List Ordered

/-- The number is in the arc of 2^31 numbers that starts at `r`. -/
def InArc (r : Inum) (ino : Inum) : Prop := (ino - r).toNat < 2 ^ 31

theorem toInt_sub_of_inArc {r a b : Inum} (ha : InArc r a) (hb : InArc r b) :
    (a - b).toInt = ((a - r).toNat : ℤ) - (b - r).toNat := by
  have hab : a - b = (a - r) - (b - r) := by bv_omega
  rw [InArc] at ha hb
  rw [hab]
  generalize a - r = x at ha ⊢
  generalize b - r = y at hb ⊢
  rw [BitVec.toInt_eq_toNat_cond, BitVec.toNat_sub]
  split <;> omega

/-- The comparison of device numbers, and of distances from the start of the arc of the device. -/
def compArc (r : Dev → Inum) : CompFunc InoMap := fun map1 map2 =>
  if map1.dev = map2.dev then
    ((map1.ino - r map1.dev).toNat : ℤ) - (map2.ino - r map2.dev).toNat
  else map1.dev.toNat - map2.dev.toNat

theorem compArc_totalPreorder (r : Dev → Inum) : TotalPreorder (compArc r) := by
  have hne : ∀ {a b : Dev}, a ≠ b → a.toNat ≠ b.toNat := fun hab h => hab (BitVec.eq_of_toNat_eq h)
  refine ⟨fun a b => ?_, fun a b c hab hbc => ?_⟩
  · rw [compArc, compArc]
    by_cases hdev : a.dev = b.dev
    · rw [if_pos hdev, if_pos hdev.symm]
      omega
    · rw [if_neg hdev, if_neg (Ne.symm hdev)]
      omega
  · rw [compArc] at hab hbc ⊢
    by_cases h₁ : a.dev = b.dev
    · rw [if_pos h₁] at hab
      rw [h₁] at hab ⊢
      split_ifs at hbc ⊢ with h₂
      · omega
      · exact hbc
    · rw [if_neg h₁] at hab
      have := hne h₁
      by_cases h₂ : b.dev = c.dev
      · rw [h₂] at hab h₁ this
        rw [if_neg h₁]
        exact hab
      · rw [if_neg h₂] at hbc
        have := hne h₂
        rw [if_neg]
        · omega
        · intro heq
          rw [heq] at hab
          omega

/-- The mapping is not `NULL`. -/
def InoMap.There (x : InoMap) : Prop := x.addr ≠ 0

def InoMap.Maps (x : InoMap) (dev : Dev) (ino : Inum) : Prop := x.dev = dev ∧ x.ino = ino

theorem compInoMap_eq {r : Dev → Inum} {a b : InoMap} (ha : a.There) (hb : b.There)
    (hra : InArc (r a.dev) a.ino) (hrb : InArc (r b.dev) b.ino) :
    compInoMap a b = compArc r a b := by
  rw [compInoMap, if_neg ha, if_neg hb, compArc]
  split_ifs with hdev
  · rw [← hdev] at hrb ⊢
    exact toInt_sub_of_inArc hra hrb
  · rfl

theorem compInoMap_eq_zero {a b : InoMap} (ha : a.There) (hb : b.There) :
    compInoMap a b = 0 ↔ b.Maps a.dev a.ino := by
  rw [compInoMap, if_neg ha, if_neg hb, InoMap.Maps]
  split_ifs with hdev
  · have hzero : (a.ino - b.ino).toInt = 0 ↔ b.ino = a.ino := by
      rw [BitVec.toInt_eq_toNat_cond]
      constructor
      · intro h
        have hnat : (a.ino - b.ino).toNat = 0 := by
          split at h <;> omega
        bv_omega
      · rintro h
        rw [h, BitVec.sub_self]
        rfl
    rw [hzero]
    exact ⟨fun h => ⟨hdev.symm, h⟩, And.right⟩
  · refine ⟨fun h => absurd (BitVec.eq_of_toNat_eq ?_) hdev, fun h => absurd h.1.symm hdev⟩
    omega

/-! ## A list of mappings -/

/-- A list of mappings, in the order of an arc for each device, with one mapping for a key. -/
structure SortedMaps (r : Dev → Inum) (m : Mem InoMap) (a : List InoMap) : Prop where
  mode : m.list.indexMode = .sorted
  index : m.list.elementList = some a
  length : m.list.numberOfElements = a.length
  nonempty : a ≠ []
  compare : m.list.elementCompare = some compInoMap
  search : m.list.searchFunc = some compInoMap
  noIndex : m.list.indexes = []
  sorted : Sorted (compArc r) a
  there : ∀ x ∈ a, x.There
  inArc : ∀ x ∈ a, InArc (r x.dev) x.ino
  keys : ∀ x ∈ a, ∀ y ∈ a, y.Maps x.dev x.ino → y = x

namespace SortedMaps

variable {r : Dev → Inum} {m : Mem InoMap} {a : List InoMap}

theorem isIndexed (h : SortedMaps r m a) : m.list.isIndexed = true := by
  rw [isIndexed_iff, h.mode]
  nofun

theorem length_pos (h : SortedMaps r m a) : 0 < a.length := length_pos_of_ne_nil h.nonempty

/-- **Searching**: the mapping with the key is found, whatever the key is. -/
theorem searchForElement (h : SortedMaps r m a) (g : Grant InoMap) (dev : Dev) (ino : Inum) :
    ∃ x, searchForElement m g (Storage.key dev ino) = .ok (m, x) ∧
      (∀ y, x = some y → y ∈ a ∧ y.Maps dev ino) ∧ (x = none → ∀ y ∈ a, ¬ y.Maps dev ino) := by
  set v := Storage.key dev ino with hv
  have hthere : v.There := Nat.one_ne_zero
  have hcheck : m.list.checkIndex m.heap g = .ok m.list := by
    rw [KList.checkIndex, if_pos h.isIndexed]
  have hlen : a.length ≠ 0 := Nat.ne_of_gt h.length_pos
  -- the search ends at an entry
  obtain ⟨c, d, hbis, -⟩ := bisect_total (compInoMap v) (Nat.le_refl a.length) h.length_pos
    (Nat.le_refl _) (Nat.le_succ a.length)
  obtain ⟨x, hx, rfl⟩ := bisect_answer hbis
  have hmem := mem_of_getElem? hx
  have hrun : Ovlfs.searchForElement m g v =
      .ok (m, if compInoMap v x = 0 then some x else none) := by
    rw [Ovlfs.searchForElement, hcheck]
    simp only [bind, Except.bind, pure, Except.pure, h.search, h.mode, if_true]
    rw [h.index, bsearch.eq_def]
    simp only [if_neg hlen, h.length, hbis, readArr, bind, Except.bind, pure, Except.pure]
    by_cases hzero : compInoMap v x = 0
    · simp only [if_pos hzero, hx]
    · simp only [if_neg hzero]
  refine ⟨_, hrun, fun y hy => ?_, fun hnone y hy hmaps => ?_⟩
  · split_ifs at hy with hzero
    obtain rfl := Option.some.inj hy
    exact ⟨hmem, (compInoMap_eq_zero hthere (h.there _ hmem)).mp hzero⟩
  · -- the key is in the arc, so the search is one in a list that is in order
    have hkey : InArc (r v.dev) v.ino := by
      have := h.inArc y hy
      rw [hmaps.1, hmaps.2] at this
      exact this
    have hsame : ∀ z ∈ a, compInoMap v z = compArc r v z :=
      fun z hz => compInoMap_eq hthere (h.there z hz) hkey (h.inArc z hz)
    obtain ⟨c', x', -, hbis', -, hx', -, -, -, hmiss⟩ := bisect_place (compArc_totalPreorder r)
      (Nat.le_refl a.length) h.length_pos (by rw [take_length]; exact h.sorted) v
    rw [← bisect_congr hsame, hbis] at hbis'
    obtain ⟨rfl, -⟩ := Prod.mk.inj (Option.some.inj hbis')
    obtain rfl := Option.some.inj (hx.symm.trans hx')
    have hne : compInoMap v x ≠ 0 := fun hzero => by
      rw [if_pos hzero] at hnone
      cases hnone
    rw [hsame x hmem] at hne
    obtain ⟨i, hi⟩ := mem_iff_getElem?.mp hy
    refine hmiss hne i (List.getElem?_eq_some_iff.mp hi).1 y hi ?_
    rw [← hsame y hy]
    exact (compInoMap_eq_zero hthere (h.there y hy)).mpr hmaps

theorem insert (h : SortedMaps r m a) {g : Grant InoMap} (hnode : g.node = true)
    (hgrow : g.grow = true) {x : InoMap} (hx : x.There) (hr : InArc (r x.dev) x.ino)
    (hnew : ∀ y ∈ a, ¬ y.Maps x.dev x.ino) :
    ∃ m' a', insertIntoListSorted m g x = .ok (m', some x) ∧ SortedMaps r m' a' ∧
      ∀ y, y ∈ a' ↔ y = x ∨ y ∈ a := by
  have hsame : ∀ z ∈ a, compInoMap x z = compArc r x z :=
    fun z hz => compInoMap_eq hx (h.there z hz) hr (h.inArc z hz)
  have hpre := compArc_totalPreorder r
  obtain ⟨c, z, pos, hbis, hc, hz, hpos, hbefore, hbehind, -⟩ := bisect_place hpre
    (Nat.le_refl a.length) h.length_pos (by rw [take_length]; exact h.sorted) x
  have hle : pos ≤ a.length := by
    rw [hpos]
    split_ifs <;> omega
  set l := { m.list with firstElement := some g.addr } with hl
  have hinsertPos : l.insertPos x = .ok pos := by
    rw [KList.insertPos, show l.elementCompare = some compInoMap from h.compare]
    simp only [show l.elementList = some a from h.index, readArr, bind, Except.bind]
    rw [findInsertPos, show l.numberOfElements = a.length from h.length, bisect_congr hsame, hbis]
    simp only [readArr, bind, Except.bind, pure, Except.pure]
    rw [hpos]
  have hgrown : l.counted.growIndexOrdered g x pos l.numberOfElements =
      .ok (l.counted.reindexed (some (a.take pos ++ x :: a.drop pos)) .sorted) := by
    have hcopied : l.counted.copied g l.numberOfElements = .ok a := by
      rw [KList.copied, show l.counted.elementList = some a from h.index]
      simp [show l.numberOfElements = a.length from h.length]
    rw [KList.growIndexOrdered, if_pos hgrow, hcopied]
    simp only [bind, Except.bind, pure, Except.pure]
    rw [if_neg (Nat.not_lt.mpr (hle.trans_eq h.length.symm))]
    exact congrArg (fun mode => Except.ok (KList.reindexed _ _ mode)) h.mode
  have hperm : ∀ y, y ∈ a.take pos ++ x :: a.drop pos ↔ y = x ∨ y ∈ a := by
    intro y
    have hsplit : y ∈ a ↔ y ∈ a.take pos ∨ y ∈ a.drop pos := by
      rw [← mem_append, take_append_drop]
    rw [mem_append, mem_cons, hsplit]
    tauto
  refine ⟨⟨m.heap.alloc g.addr ⟨x, m.list.firstElement⟩,
      l.counted.reindexed (some (a.take pos ++ x :: a.drop pos)) .sorted⟩, _, ?_,
    ⟨rfl, rfl, ?_, ?_, h.compare, h.search, h.noIndex, ?_, ?_, ?_, ?_⟩, hperm⟩
  · rw [insertIntoListSorted, if_pos hnode, h.noIndex]
    simp only [insertIndexes, eachIndex, bind, Except.bind, pure, Except.pure]
    have hnil : { m.list with firstElement := some g.addr, indexes := [] } = l := by
      rw [hl, ← h.noIndex]
    rw [hnil, KList.sortedInsert, if_pos (show l.indexMode = .sorted from h.mode), hinsertPos]
    simp only [bind, Except.bind]
    rw [hgrown]
  · simp [KList.counted, KList.reindexed, hl, h.length]
    omega
  · simp
  · refine Sorted.insert ?_ (fun y hy => ?_) fun y hy => ?_
    · rw [take_append_drop]
      exact h.sorted
    · obtain ⟨i, hi⟩ := mem_iff_getElem?.mp hy
      have hlt : i < pos := by
        have := (List.getElem?_eq_some_iff.mp hi).1
        rw [length_take] at this
        omega
      rw [getElem?_take_of_lt hlt] at hi
      exact (hpre.nonneg_iff _ _).mp (hbefore i hlt y hi)
    · obtain ⟨i, hi⟩ := mem_iff_getElem?.mp hy
      rw [getElem?_drop] at hi
      exact hbehind _ (Nat.le_add_right _ _) (List.getElem?_eq_some_iff.mp hi).1 y hi
  · intro y hy
    rcases (hperm y).mp hy with rfl | hy
    · exact hx
    · exact h.there y hy
  · intro y hy
    rcases (hperm y).mp hy with rfl | hy
    · exact hr
    · exact h.inArc y hy
  · intro y hy z hz hmaps
    rcases (hperm y).mp hy with rfl | hya
    · rcases (hperm z).mp hz with rfl | hza
      · rfl
      · exact absurd hmaps (hnew z hza)
    · rcases (hperm z).mp hz with rfl | hza
      · exact absurd ⟨hmaps.1.symm, hmaps.2.symm⟩ (hnew y hya)
      · exact h.keys y hya z hza hmaps

theorem first {g : Grant InoMap} (hnode : g.node = true) (hmake : g.make = true) {x : InoMap}
    (hx : x.There) (hr : InArc (r x.dev) x.ino) :
    ∃ m', insertIntoListSorted Storage.createInoMapList g x = .ok (m', some x) ∧
      SortedMaps r m' [x] := by
  set heap : Heap InoMap := Heap.unused.alloc g.addr ⟨x, none⟩ with hheap
  set l : KList InoMap := { Storage.createInoMapList.list with firstElement := some g.addr } with hl
  refine ⟨⟨heap, l.counted.reindexed (some [x]) .sorted⟩, ?_, ⟨rfl, rfl, rfl, cons_ne_nil _ _,
    rfl, rfl, rfl, pairwise_singleton _ _, ?_, ?_, ?_⟩⟩
  · -- the list has no index yet: one is made from the chain and sorted
    have hmade : makeIndex heap l.counted.numberOfElements (some g.addr) = .ok [x] := by
      rw [show l.counted.numberOfElements = 1 from rfl, makeIndex, hheap, Heap.alloc, Heap.deref]
      simp [makeIndex, bind, Except.bind, pure, Except.pure]
    have hchecked : l.counted.checkIndex heap g = .ok (l.counted.reindexed (some [x]) .flat) := by
      rw [KList.checkIndex, if_pos hmake]
      change (makeIndex heap l.counted.numberOfElements (some g.addr) >>= fun a => _) = _
      rw [hmade]
      rfl
    have hsorted : l.sortedInsert heap g x = .ok (l.counted.reindexed (some [x]) .sorted) := by
      rw [KList.sortedInsert, if_neg (show l.indexMode ≠ .sorted from (by rintro ⟨⟩))]
      change (l.counted.sortList heap g) = _
      rw [KList.sortList, hchecked]
      rfl
    rw [insertIntoListSorted, if_pos hnode]
    change (l.sortedInsert heap g x >>= fun l => _) = _
    rw [hsorted]
    rfl
  · intro y hy
    obtain rfl := mem_singleton.mp hy
    exact hx
  · intro y hy
    obtain rfl := mem_singleton.mp hy
    exact hr
  · intro y hy z hz _
    rw [mem_singleton.mp hy, mem_singleton.mp hz]

end SortedMaps

/-! ## The mappings of a storage -/

namespace Storage

variable {compOvlIno : CompFunc ℕ} {s s' : Storage} {r : Side → Dev → Inum}
  {last : Side → Dev × Inum → Option ℕ} {maps : Side → List InoMap}

def setLast (last : Side → Dev × Inum → Option ℕ) (side : Side) (dev : Dev) (ino : Inum) (n : ℕ) :
    Side → Dev × Inum → Option ℕ :=
  Function.update last side (Function.update (last side) (dev, ino) (some n))

def noteMapped (s : Storage) (a : Call) (last : Side → Dev × Inum → Option ℕ) :
    Side → Dev × Inum → Option ℕ :=
  match a with
  | .mapInode g inum1 dev2 inum2 which =>
    match Side.ofChar which, s.mapInode g inum1 dev2 inum2 which with
    | some side, .ok (_, .ok ()) => setLast last side dev2 inum2 inum1
    | _, _ => last
  | _ => last

def mappedSystem (compOvlIno : CompFunc ℕ) :
    Lib.System (Storage × (Side → Dev × Inum → Option ℕ)) Call Fault :=
  (system compOvlIno).record (fun _ _ => none) noteMapped

/-- There is memory for the mapping and its list. -/
structure MapGrant.Succeeds (g : MapGrant) : Prop where
  mapping : g.mapping = true
  list : g.list = true
  node : g.insert.node = true
  grow : g.insert.grow = true
  make : g.insert.make = true

def Call.Succeeds : Call → Prop
  | .mapInode g _ _ _ _ => g.Succeeds
  | _ => True

/-- A mapping has its memory, and its number is in the arc of its device. -/
def Near (r : Side → Dev → Inum) (_ : Storage) : Call → Prop
  | .mapInode g _ dev2 inum2 which =>
    g.Succeeds ∧ ∀ side, Side.ofChar which = some side → InArc (r side dev2) inum2
  | _ => True

/-- **The mapping invariant**: each list has the mappings of its filesystem, and they say what was
set last. -/
structure Mapped (r : Side → Dev → Inum) (s : Storage) (last : Side → Dev × Inum → Option ℕ)
    (maps : Side → List InoMap) : Prop where
  list : ∀ side m, s.toOvl side = some m → SortedMaps (r side) m (maps side)
  empty : ∀ side, s.toOvl side = none → maps side = []
  value : ∀ side, ∀ x ∈ maps side, last side (x.dev, x.ino) = some (s.ovlIno x.addr)
  unset : ∀ side dev ino, (∀ x ∈ maps side, ¬ x.Maps dev ino) → last side (dev, ino) = none
  lt : ∀ side, ∀ x ∈ maps side, x.addr < s.nextMap
  apart : ∀ side, ∀ x ∈ maps side, ∀ side', ∀ y ∈ maps side', x.addr = y.addr →
    side = side' ∧ x = y
  nextMap_ne_zero : s.nextMap ≠ 0

/-- The lists of mappings are the same. -/
structure SameMaps (s s' : Storage) : Prop where
  toOvl : s'.toOvl = s.toOvl
  ovlIno : s'.ovlIno = s.ovlIno
  nextMap : s'.nextMap = s.nextMap

variable {p : Option ℕ}

theorem addToList_sameMaps {m : Mem ℕ} {g : AddGrant} {name : Option (List Char)}
    (h : s.addToList m g name = .ok (s', p)) : SameMaps s s' := by
  rw [addToList] at h
  split at h
  · obtain ⟨⟨m', inserted⟩, -, h⟩ := bind_eq_ok h
    cases inserted with
    | none | some p =>
      cases h
      exact ⟨rfl, rfl, rfl⟩
  · cases h
    exact ⟨rfl, rfl, rfl⟩

theorem addInode_sameMaps {g : AddGrant} {name : Option (List Char)}
    (h : s.addInode compOvlIno g name = .ok (s', p)) : SameMaps s s' := by
  rw [addInode] at h
  split at h
  · exact addToList_sameMaps h
  · split at h
    · exact addToList_sameMaps h
    · cases h
      exact ⟨rfl, rfl, rfl⟩

theorem getIno_sameMaps {g : Grant ℕ} {ino : ℕ} (h : s.getIno g ino = .ok (s', p)) :
    SameMaps s s' := by
  rw [getIno] at h
  split at h
  · cases h
    exact ⟨rfl, rfl, rfl⟩
  · split at h
    · cases h
      exact ⟨rfl, rfl, rfl⟩
    · obtain ⟨⟨m', result⟩, -, h⟩ := bind_eq_ok h
      cases h
      exact ⟨rfl, rfl, rfl⟩

namespace Mapped

theorem init (r : Side → Dev → Inum) : Mapped r Storage.init (fun _ _ => none) fun _ => [] :=
  ⟨nofun, fun _ _ => rfl, nofun, fun _ _ _ _ => rfl, nofun, nofun, Nat.succ_ne_zero _⟩

theorem same (h : Mapped r s last maps) (hsame : SameMaps s s') : Mapped r s' last maps where
  list side m hm := h.list side m (hsame.toOvl ▸ hm)
  empty side hnone := h.empty side (hsame.toOvl ▸ hnone)
  value side x hx := hsame.ovlIno ▸ h.value side x hx
  unset := h.unset
  lt side x hx := hsame.nextMap ▸ h.lt side x hx
  apart := h.apart
  nextMap_ne_zero := hsame.nextMap ▸ h.nextMap_ne_zero

variable {side : Side}

section

variable (h : Mapped r s last maps)

include h

/-- **Looking for a mapping** in a list that exists. -/
theorem search {m : Mem InoMap} (hm : s.toOvl side = some m) (g : Grant InoMap) (dev : Dev)
    (ino : Inum) :
    ∃ x, searchForElement m g (key dev ino) = .ok (m, x) ∧ s.setMaps side m = s ∧
      (∀ y, x = some y → y ∈ maps side ∧ y.Maps dev ino) ∧
      (x = none → ∀ y ∈ maps side, ¬ y.Maps dev ino) := by
  obtain ⟨x, hrun, hfound, hnot⟩ := (h.list side m hm).searchForElement g dev ino
  have hkept : s.setMaps side m = s := by
    rw [setMaps, ← hm, update_eq_self]
  exact ⟨x, hrun, hkept, hfound, hnot⟩

/-- **Lookups** find what was set last. -/
theorem mapLookup {which : Char} (hside : Side.ofChar which = some side) (g : Grant InoMap)
    (dev : Dev) (ino : Inum) :
    s.mapLookup g dev ino which = .ok (s, (last side (dev, ino)).elim (.error .enoent) .ok) := by
  simp only [Storage.mapLookup, hside]
  cases hm : s.toOvl side with
  | none =>
    have hunset : last side (dev, ino) = none := h.unset side dev ino fun x hx => by
      rw [h.empty side hm] at hx
      cases hx
    rw [hunset]
    rfl
  | some m =>
    obtain ⟨x, hrun, hkept, hfound, hnot⟩ := h.search hm g dev ino
    simp only [hrun]
    change Except.ok (s.setMaps side m, _) = _
    rw [hkept]
    cases x with
    | none =>
      rw [h.unset side dev ino (hnot rfl)]
      rfl
    | some y =>
      obtain ⟨hy, rfl, rfl⟩ := hfound y rfl
      rw [h.value side y hy]
      rfl

theorem checkMapping (side : Side) (g : Grant InoMap) (dev : Dev) (ino : Inum) (n : ℕ) :
    (∃ s', s.checkMapping side g dev ino n = .ok (s', true) ∧
      Mapped r s' (setLast last side dev ino n) maps) ∨
    s.checkMapping side g dev ino n = .ok (s, false) ∧ ∀ y ∈ maps side, ¬ y.Maps dev ino := by
  rw [Storage.checkMapping]
  cases hm : s.toOvl side with
  | none =>
    refine .inr ⟨rfl, fun x hx => ?_⟩
    rw [h.empty side hm] at hx
    cases hx
  | some m =>
    obtain ⟨x, hrun, hkept, hfound, hnot⟩ := h.search hm g dev ino
    simp only [hrun, bind, Except.bind, pure, Except.pure, hkept]
    cases x with
    | none => exact .inr ⟨rfl, hnot rfl⟩
    | some y =>
      obtain ⟨hy, rfl, rfl⟩ := hfound y rfl
      refine .inl ⟨_, rfl, h.list, h.empty, fun side' x hx => ?_, fun side' dev ino hnone => ?_,
        h.lt, h.apart, h.nextMap_ne_zero⟩
      · by_cases heq : side' = side ∧ x = y
        · obtain ⟨rfl, rfl⟩ := heq
          simp [setLast]
        · have haddr : x.addr ≠ y.addr := fun ha => heq (h.apart side' x hx side y hy ha)
          simp only [update_of_ne haddr]
          rw [← h.value side' x hx, setLast]
          by_cases hs : side' = side
          · subst hs
            rw [update_self, update_of_ne]
            intro hkey
            obtain ⟨hdev, hino⟩ := Prod.mk.inj hkey
            exact heq ⟨rfl, (h.list side' m hm).keys y hy x hx ⟨hdev, hino⟩⟩
          · rw [update_of_ne hs]
      · rw [← h.unset side' dev ino hnone, setLast]
        by_cases hs : side' = side
        · subst hs
          rw [update_self, update_of_ne]
          intro hkey
          obtain ⟨hdev, hino⟩ := Prod.mk.inj hkey
          exact hnone y hy ⟨hdev.symm, hino.symm⟩
        · rw [update_of_ne hs]

theorem insert {dev : Dev} {ino : Inum} {n : ℕ} (hnew : ∀ y ∈ maps side, ¬ y.Maps dev ino)
    {m : Mem InoMap} {a : List InoMap} (hm : SortedMaps (r side) m a)
    (ha : ∀ y, y ∈ a ↔ y = ⟨s.nextMap, dev, ino⟩ ∨ y ∈ maps side) :
    Mapped r { s with
      toOvl := update s.toOvl side (some m)
      ovlIno := update s.ovlIno s.nextMap n
      nextMap := s.nextMap + 1 } (setLast last side dev ino n) (update maps side a) := by
  -- a mapping is an old one or the new one
  have hold : ∀ {side' x}, x ∈ update maps side a side' →
      x ∈ maps side' ∨ side' = side ∧ x = ⟨s.nextMap, dev, ino⟩ := by
    intro side' x hx
    by_cases hs : side' = side
    · subst hs
      rw [update_self, ha] at hx
      exact hx.elim (fun h => .inr ⟨rfl, h⟩) .inl
    · rw [update_of_ne hs] at hx
      exact .inl hx
  refine ⟨fun side' m' hm' => ?_, fun side' hnone => ?_, fun side' x hx => ?_,
    fun side' dev' ino' hnone => ?_, fun side' x hx => ?_, fun side₁ x hx side₂ y hy heq => ?_,
    Nat.succ_ne_zero _⟩
  · by_cases hs : side' = side
    · subst hs
      simp only [update_self] at hm' ⊢
      cases hm'
      exact hm
    · simp only [update_of_ne hs] at hm' ⊢
      exact h.list side' m' hm'
  · by_cases hs : side' = side
    · subst hs
      simp only [update_self] at hnone
      cases hnone
    · simp only [update_of_ne hs] at hnone ⊢
      exact h.empty side' hnone
  · rcases hold hx with hin | ⟨rfl, rfl⟩
    · have hne : x.addr ≠ s.nextMap := Nat.ne_of_lt (h.lt side' x hin)
      simp only [update_of_ne hne]
      rw [← h.value side' x hin, setLast]
      by_cases hs : side' = side
      · subst hs
        rw [update_self, update_of_ne]
        intro hkey
        exact hnew x hin (Prod.mk.inj hkey)
      · rw [update_of_ne hs]
    · simp [setLast]
  · by_cases hs : side' = side
    · subst hs
      simp only [update_self] at hnone
      rw [← h.unset side' dev' ino' fun x hx => hnone x ((ha x).mpr (.inr hx)), setLast,
        update_self, update_of_ne]
      intro hkey
      cases hkey
      exact hnone _ ((ha _).mpr (.inl rfl)) ⟨rfl, rfl⟩
    · rw [← h.unset side' dev' ino' fun x hx => hnone x ?_, setLast, update_of_ne hs]
      rw [update_of_ne hs]
      exact hx
  · rcases hold hx with hin | ⟨rfl, rfl⟩
    · exact Nat.lt_succ_of_lt (h.lt side' x hin)
    · exact Nat.lt_succ_self _
  · rcases hold hx with hin₁ | ⟨rfl, rfl⟩ <;> rcases hold hy with hin₂ | ⟨rfl, rfl⟩
    · exact h.apart side₁ x hin₁ side₂ y hin₂ heq
    · exact absurd heq (Nat.ne_of_lt (h.lt side₁ x hin₁))
    · exact absurd heq.symm (Nat.ne_of_lt (h.lt side₂ y hin₂))
    · exact ⟨rfl, rfl⟩

theorem insertMapping {g : MapGrant} (hg : g.Succeeds) {dev : Dev} {ino : Inum}
    (hr : InArc (r side dev) ino) (n : ℕ) (hnew : ∀ y ∈ maps side, ¬ y.Maps dev ino) :
    ∃ s' maps', s.insertMapping side g dev ino n = .ok (s', .ok ()) ∧
      Mapped r s' (setLast last side dev ino n) maps' := by
  have hthere : InoMap.There ⟨s.nextMap, dev, ino⟩ := h.nextMap_ne_zero
  simp only [Storage.insertMapping, if_pos hg.mapping]
  cases hm : s.toOvl side with
  | some m =>
    obtain ⟨m', a', hrun, hsorted, ha⟩ := (h.list side m hm).insert hg.node hg.grow hthere hr hnew
    refine ⟨_, _, ?_, h.insert (n := n) hnew hsorted ha⟩
    simp only [putMapping, hrun]
    rfl
  | none =>
    obtain ⟨m', hrun, hsorted⟩ := SortedMaps.first hg.node hg.make hthere hr
    refine ⟨_, _, ?_, h.insert (n := n) hnew hsorted fun y => ?_⟩
    · simp only [if_pos hg.list, putMapping, hrun]
      rfl
    · rw [h.empty side hm]
      simp

/-- **Mapping an inode** sets the number of the key. -/
theorem inodeSetOther {g : MapGrant} (hg : g.Succeeds) {which : Char}
    (hside : Side.ofChar which = some side) {dev : Dev} {ino : Inum} (hr : InArc (r side dev) ino)
    (p : ℕ) :
    ∃ s' maps', s.inodeSetOther g p dev ino which = .ok (s', .ok ()) ∧
      Mapped r s' (setLast last side dev ino (s.inode p).ino) maps' := by
  have hset : Mapped r (s.setReal side p dev ino) last maps := h.same ⟨rfl, rfl, rfl⟩
  have hino : ((s.setReal side p dev ino).inode p).ino = (s.inode p).ino :=
    (setReal_same side p dev ino).ino p
  simp only [Storage.inodeSetOther, hside, hino]
  rcases hset.checkMapping side g.find dev ino (s.inode p).ino with ⟨s₁, hrun, hfound⟩ |
    ⟨hrun, hnew⟩
  · refine ⟨s₁, maps, ?_, hfound⟩
    rw [hrun]
    rfl
  · obtain ⟨s₁, maps', hinsert, hmapped⟩ := hset.insertMapping hg hr (s.inode p).ino hnew
    refine ⟨s₁, maps', ?_, hmapped⟩
    rw [hrun]
    change (s.setReal side p dev ino).insertMapping side g dev ino _ = _
    rw [hino]
    exact hinsert

/-- **Mapping** the inode with a number sets the number of the key, if there is such an inode. -/
theorem mapInode {added : List ℕ} (hnum : Numbered s added) {g : MapGrant} (hg : g.Succeeds)
    {inum1 : ℕ} {dev2 : Dev} {inum2 : Inum} {which : Char}
    (hr : ∀ side, Side.ofChar which = some side → InArc (r side dev2) inum2)
    {res : Except Errno Unit} (hrun : s.mapInode g inum1 dev2 inum2 which = .ok (s', res)) :
    ∃ maps', Mapped r s' (s.noteMapped (.mapInode g inum1 dev2 inum2 which) last) maps' := by
  simp only [noteMapped, hrun]
  obtain ⟨⟨s₁, ino⟩, hget, hx⟩ := bind_eq_ok hrun
  have hmapped := h.same (getIno_sameMaps hget)
  obtain ⟨s₂, hfind, hnum'⟩ := hnum.getIno g.get inum1
  obtain ⟨rfl, hino⟩ := Prod.mk.inj (Except.ok.inj (hfind.symm.trans hget))
  cases ino with
  | none =>
    cases hx
    refine ⟨maps, ?_⟩
    cases Side.ofChar which <;> exact hmapped
  | some p =>
    have hp : (s₂.inode p).ino = inum1 := by
      split at hino
      · rename_i hand
        rw [hnum'.ino _ _ hino]
        omega
      · cases hino
    simp only at hx
    cases hside : Side.ofChar which with
    | none =>
      simp only [Storage.inodeSetOther, hside] at hx
      cases hx
      exact ⟨maps, hmapped⟩
    | some side =>
      obtain ⟨s₃, maps', hset, hnext⟩ := hmapped.inodeSetOther hg hside (hr side hside) p
      obtain ⟨rfl, rfl⟩ := Prod.mk.inj (Except.ok.inj (hset.symm.trans hx))
      rw [hp] at hnext
      exact ⟨maps', hnext⟩

/-- **Step lemma**. -/
theorem next {added : List ℕ} (hnum : Numbered s added) {a : Call} (hnear : Near r s a)
    (hstep : s.call compOvlIno a = .ok s') :
    ∃ maps', Mapped r s' (s.noteMapped a last) maps' := by
  cases a with
  | addInode g name =>
    obtain ⟨⟨s₁, res⟩, hx, heq⟩ := bind_eq_ok hstep
    cases heq
    exact ⟨maps, h.same (addInode_sameMaps hx)⟩
  | getIno g n =>
    obtain ⟨⟨s₁, res⟩, hx, heq⟩ := bind_eq_ok hstep
    cases heq
    exact ⟨maps, h.same (getIno_sameMaps hx)⟩
  | mapInode g inum1 dev2 inum2 which =>
    obtain ⟨⟨s₁, res⟩, hx, heq⟩ := bind_eq_ok hstep
    cases heq
    exact h.mapInode hnum hnear.1 hnear.2 hx
  | mapLookup g dev inum which =>
    obtain ⟨⟨s₁, res⟩, hx, heq⟩ := bind_eq_ok hstep
    cases heq
    cases hside : Side.ofChar which with
    | none =>
      simp only [Storage.mapLookup, hside] at hx
      cases hx
      exact ⟨maps, h⟩
    | some side =>
      obtain ⟨rfl, -⟩ := Prod.mk.inj (Except.ok.inj ((h.mapLookup hside g dev inum).symm.trans hx))
      exact ⟨maps, h⟩

end

end Mapped

theorem reach_mapped
    (h : (mappedSystem compOvlIno).Reach (fun s a => Near r s.1 a) (s, last)) :
    ∃ maps, Mapped r s last maps :=
  (Lib.System.Reach.record_invariant (S := system compOvlIno) (Near r)
    (fun s last => (∃ added, Numbered s added) ∧ ∃ maps, Mapped r s last maps)
    ⟨⟨[], .init⟩, fun _ => [], .init r⟩
    (fun _ _ _ _ hinv hfresh hnear hstep =>
      ⟨hinv.1.imp' _ fun _ hnum => hnum.next hfresh hstep,
        hinv.2.elim fun _ hmapped => hinv.1.elim fun _ hnum => hmapped.next hnum hnear hstep⟩) h).2

/-- **Mappings of inodes**: in every run in which the mapped numbers of each list and device are in
an arc of 2^31 numbers, a lookup returns the number that was set last for a key, and `ENOENT` if
none was. -/
theorem map_lookup_last
    (h : (mappedSystem compOvlIno).Reach (fun s a => Near r s.1 a) (s, last)) {which : Char}
    {side : Side} (hside : Side.ofChar which = some side) (g : Grant InoMap) (dev : Dev)
    (ino : Inum) :
    s.mapLookup g dev ino which = .ok (s, (last side (dev, ino)).elim (.error .enoent) .ok) :=
  (reach_mapped h).elim fun _ hinv => hinv.mapLookup hside g dev ino

/-- There is memory for everything, and nodes are put to an address. -/
def amplyMap (p : ℕ) : MapGrant := ⟨ample 0, ample 0, true, true, ample p⟩

theorem amplyMap_succeeds (p : ℕ) : (amplyMap p).Succeeds := ⟨rfl, rfl, rfl, rfl, rfl⟩

/-- Two inodes, which are mapped to inodes 7 and 9 of the storage filesystem. -/
theorem map_lookup_last_two : ∃ s last,
    (mappedSystem fun _ _ => 0).Reach (fun s a => Near (fun _ _ => 0) s.1 a) (s, last) ∧
      s.mapLookup (ample 0) 5 7 's' = .ok (s, .ok 1) ∧
      s.mapLookup (ample 0) 5 9 's' = .ok (s, .ok 2) := by
  have h₁ : (mappedSystem fun _ _ => 0).Reach (fun s a => Near (fun _ _ => 0) s.1 a) _ :=
    .step (a := .addInode ⟨true, true, true, ample 10⟩ none) .init nofun trivial rfl
  have h₂ := h₁.next (.addInode ⟨true, true, true, ample 20⟩ (some ['a']))
      (fun _ hm => Option.some.inj hm ▸ rfl) trivial rfl
  have h₃ := h₂.next (.mapInode (amplyMap 30) 1 5 7 's') nofun
      ⟨amplyMap_succeeds 30, fun _ _ => show ((7 : Inum) - 0).toNat < 2 ^ 31 by decide⟩ rfl
  have h₄ := h₃.next (.mapInode (amplyMap 40) 2 5 9 's')
      (fun side m hm => by cases side <;> cases hm; rfl)
      ⟨amplyMap_succeeds 40, fun _ _ => show ((9 : Inum) - 0).toNat < 2 ^ 31 by decide⟩ rfl
  have hside : Side.ofChar 's' = some .stg := rfl
  exact ⟨_, _, h₄, map_lookup_last h₄ hside (ample 0) 5 7, map_lookup_last h₄ hside (ample 0) 5 9⟩

/-- Inode 1 of a device is mapped, and then inode 2^31 + 1: it goes before the first, and the search
for inode 1 looks before both. -/
theorem map_lookup_lost : ∃ s last,
    (mappedSystem fun _ _ => 0).Reach (fun _ a => a.Succeeds) (s, last) ∧
      last .base (5, 1) = some 1 ∧
      ∃ s', s.mapLookup (ample 0) 5 1 'b' = .ok (s', .error .enoent) := by
  have h₁ : (mappedSystem fun _ _ => 0).Reach (fun _ a => a.Succeeds) _ :=
    .step (a := .addInode ⟨true, true, true, ample 10⟩ none) .init nofun trivial rfl
  have h₂ := h₁.next (.addInode ⟨true, true, true, ample 20⟩ (some ['a']))
      (fun _ hm => Option.some.inj hm ▸ rfl) trivial rfl
  have h₃ := h₂.next (.mapInode (amplyMap 30) 1 5 1 'b') nofun (amplyMap_succeeds 30) rfl
  have h₄ := h₃.next (.mapInode (amplyMap 40) 2 5 0x80000001 'b')
      (fun side m hm => by cases side <;> cases hm; rfl) (amplyMap_succeeds 40) rfl
  exact ⟨_, _, h₄, by decide, _, rfl⟩

end Storage

end Ovlfs
