import ReadingComment.Lib.Cursor
import ReadingComment.Ovlfs.DirectoryBooks

/-!
# The index by position of a directory

`comp_dirent_pos` subtracts positions and returns the difference as an `int`, so it orders entries
only while these are less than 2³¹ positions apart (`Window`). Then the index by position has the
entries in their order, whenever it is up to date (`Index.Placed`), and `ovlfs_stg1_find_next` finds
the next entry with two binary searches: that of the list for the very position, with the low 32
bits of it, and its own.
-/

namespace Ovlfs

open List Ordered

/-! ## Positions -/

def byPos : CompFunc Dirent := fun ent1 ent2 => (ent1.pos.toNat : ℤ) - ent2.pos.toNat

theorem byPos_totalPreorder : TotalPreorder byPos := by
  refine ⟨?_, ?_⟩
  · intro e f
    rw [byPos, byPos]
    omega
  · intro e f k
    rw [byPos, byPos, byPos]
    omega

def Window (els : List Dirent) : Prop :=
  ∀ e ∈ els, ∀ f ∈ els, e.pos.toNat < f.pos.toNat + 2 ^ 31

theorem Window.of_subset {els els' : List Dirent} (h : Window els) (hsub : ∀ e ∈ els', e ∈ els) :
    Window els' := fun e he f hf => h e (hsub e he) f (hsub f hf)

theorem compDirentPos_eq {e f : Dirent} (h : e.pos.toNat < f.pos.toNat + 2 ^ 31)
    (h' : f.pos.toNat < e.pos.toNat + 2 ^ 31) : compDirentPos e f = byPos e f := by
  have he := e.pos.isLt
  have hf := f.pos.isLt
  rw [compDirentPos, byPos, BitVec.toInt_eq_toNat_cond, BitVec.toNat_sub]
  split <;> omega

theorem compDirentPos_eq_zero {e f : Dirent} : compDirentPos e f = 0 ↔ e.pos = f.pos := by
  have he := e.pos.isLt
  have hf := f.pos.isLt
  rw [compDirentPos, BitVec.toInt_eq_toNat_cond, BitVec.toNat_sub, ← BitVec.toNat_inj]
  constructor
  · intro h
    split at h <;> omega
  · intro h
    split <;> omega

/-! ## The index -/

/-- An index by position of a list with the given elements. -/
structure Index.Placed (els : List Dirent) (i : Index Dirent) : Prop where
  compFunc : i.compFunc = compDirentPos
  entries : i.upToDate = true → els ≠ [] ∧ ∃ a, i.elements = some a ∧ a.Perm els ∧ Sorted byPos a

namespace Index.Placed

variable {els els' : List Dirent} {i : Index Dirent}

theorem of_stale (hcmp : i.compFunc = compDirentPos) (hi : i.upToDate = false) : i.Placed els := by
  refine ⟨hcmp, ?_⟩
  intro hup
  rw [hi] at hup
  cases hup

theorem sized (h : i.Placed els) : i.Sized els.length := by
  intro hup
  obtain ⟨hne, a, ha, hperm, -⟩ := h.entries hup
  exact ⟨fun hzero => hne (eq_nil_of_length_eq_zero hzero), a, ha, hperm.length_eq⟩

theorem insert (h : i.Placed els) {e : Dirent} (hwindow : Window (e :: els)) (granted : Bool) :
    ∃ i', (altIndexResize els.length (els.length + 1) granted i >>= altIndexInsert els.length e) =
      .ok i' ∧ i'.Placed (e :: els) := by
  obtain ⟨i', hres, hcmp, hup⟩ := h.sized.insert_eq granted e
  refine ⟨i', hres, hcmp.trans h.compFunc, fun hup' => ?_⟩
  obtain ⟨a, pos, hiup, ha, hpos, -, ha'⟩ := hup hup'
  obtain ⟨hne, a', ha'', hperm, hs⟩ := h.entries hiup
  obtain rfl := Option.some.inj (ha.symm.trans ha'')
  have hane : a ≠ [] := fun hnil => hne (hnil ▸ hperm).nil_eq.symm
  -- the place is the one that the order of positions gives
  have hsame : findInsertPos i.compFunc a.length e (a ++ [default]) =
      findInsertPos byPos a.length e (a ++ [default]) := by
    rw [findInsertPos, findInsertPos, bisect_congr_before (n := a.length) ?_ (a.length + 1)
      (length_pos_of_ne_nil hane) (le_refl _)]
    intro k hk x hx
    rw [getElem?_append_left hk] at hx
    have hmem : x ∈ e :: els := mem_cons_of_mem e (hperm.mem_iff.mp (mem_of_getElem? hx))
    rw [h.compFunc]
    exact compDirentPos_eq (hwindow e mem_cons_self x hmem) (hwindow x hmem e mem_cons_self)
  obtain ⟨pos', hpos', -, hins⟩ := findInsertPos_spec byPos_totalPreorder hs hane [default] e
  obtain rfl := Except.ok.inj (hpos.symm.trans (hsame.trans hpos'))
  refine ⟨cons_ne_nil e els, _, ha', ?_, hins⟩
  refine perm_middle.trans (List.Perm.cons e ?_)
  rw [take_append_drop]
  exact hperm

theorem delete (h : i.Placed els) {e : Dirent} (hels : els.Perm (e :: els')) (granted : Bool) :
    ∃ i', (altIndexDelete els.length e i >>= altIndexResize els.length (els.length - 1) granted) =
      .ok i' ∧ i'.Placed els' := by
  obtain ⟨i', hres, hcmp, hup⟩ := h.sized.delete_eq granted e
  refine ⟨i', hres, hcmp.trans h.compFunc, fun hup' => ?_⟩
  obtain ⟨a, pos, hi, ha, hpos, hae, ha'⟩ := hup hup'
  obtain ⟨-, b, hb, hperm, hs⟩ := h.entries hi
  obtain rfl := Option.some.inj (ha.symm.trans hb)
  obtain ⟨hne, hperm', hs'⟩ := eraseIdx_spec hperm hels hpos hae hs
  exact ⟨hne, _, ha', hperm', hs'⟩

theorem update {heap : Heap Dirent} {l : KList Dirent} {c : List (ℕ × Dirent)}
    (hl : Linked heap.node l.firstElement c) (hn : l.numberOfElements = c.length)
    (hwindow : Window (c.map Prod.snd)) (hcmp : i.compFunc = compDirentPos) (granted : Bool)
    (hup : i.upToDate = false) :
    ∃ i' ok, updateAltIndex heap l granted i = .ok (i', ok) ∧ i'.Placed (c.map Prod.snd) ∧
      (ok = true ↔ c = [] ∨ granted = true) ∧ (ok = true → c ≠ [] → i'.upToDate = true) ∧
      (c = [] → i'.elements = none) := by
  rw [updateAltIndex]
  split
  case isTrue hzero =>
    have hnil : c = [] := length_eq_zero_iff.mp (hn.symm.trans hzero)
    exact ⟨_, true, rfl, .of_stale hcmp hup, iff_of_true rfl (.inl hnil),
      fun _ hne => absurd hnil hne, fun _ => rfl⟩
  case isFalse hpos =>
    have hlen : (c.map Prod.snd).length = l.numberOfElements := by rw [length_map, hn]
    have hne : c.map Prod.snd ≠ [] := fun hnil => hpos (by rw [← hlen, hnil]; rfl)
    have hnil : c ≠ [] := fun hnil => hne (by rw [hnil]; rfl)
    split
    case isTrue hgranted =>
      obtain ⟨hperm, hsorted⟩ := ssort_spec byPos_totalPreorder (l := c.map Prod.snd)
        (n := l.numberOfElements - 1) (by omega)
      have hsort : ssortArr i.compFunc l.numberOfElements (c.map Prod.snd) =
          .ok (ssort byPos (l.numberOfElements - 1) (c.map Prod.snd)) := by
        rw [hcmp, ← hlen, ssortArr_eq]
        exact congrArg Except.ok (ssort_congr (fun e f he hf => compDirentPos_eq (hwindow e he f hf)
          (hwindow f hf e he)) _ fun e he => he)
      refine ⟨⟨i.compFunc, i.lazyUpd, true, some (ssort byPos (l.numberOfElements - 1)
        (c.map Prod.snd))⟩, true, ?_, ⟨hcmp, fun _ => ⟨hne, _, rfl, hperm, hsorted⟩⟩,
        iff_of_true rfl (.inr hgranted), fun _ _ => rfl, fun h => absurd h hnil⟩
      rw [hn, makeIndex_eq hl, ← hn]
      show (ssortArr i.compFunc l.numberOfElements (c.map Prod.snd) >>= _) = _
      rw [hsort]
      rfl
    case isFalse hgranted =>
      exact ⟨_, false, rfl, .of_stale hcmp hup,
        iff_of_false (by rintro ⟨⟩) (not_or.mpr ⟨hnil, hgranted⟩), by rintro ⟨⟩,
          fun h => absurd h hnil⟩

end Index.Placed

/-! ## The list -/

section Indexes

variable {ε : Type} {l l' : KList ε} {id : ℤ}

theorem index?_ne_none_iff :
    l.index? id ≠ none ↔ 1 ≤ id ∧ (l.indexes.map Option.isSome)[id.toNat - 1]? = some true := by
  rw [KList.index?, getElem?_map]
  split
  case isTrue hid => simp [hid]
  case isFalse hid =>
    have hid' : 1 ≤ id := by omega
    rcases l.indexes[id.toNat - 1]? with _ | _ | i
    · simp
    · simp
    · simp [hid']

theorem eachIndex_isSome {f : ℕ → Index ε → Except Fault (Index ε)} {k : ℕ}
    {is is' : List (Option (Index ε))} (h : eachIndex f k is = .ok is') :
    is'.map Option.isSome = is.map Option.isSome := by
  induction is generalizing k is' with
  | nil =>
    cases h
    rfl
  | cons i is ih =>
    cases i with
    | none =>
      obtain ⟨rest, hrest, hres⟩ := Lib.bind_eq_ok h
      cases hres
      rw [map_cons, map_cons, ih hrest]
    | some i =>
      obtain ⟨i', -, h⟩ := Lib.bind_eq_ok h
      obtain ⟨rest, hrest, hres⟩ := Lib.bind_eq_ok h
      cases hres
      rw [map_cons, map_cons, ih hrest]
      rfl

theorem index?_setIndex {i : Index ε} (h : l.index? id = some i) (i' : Index ε) :
    (l.setIndex id (some i')).index? id = some i' := by
  rw [KList.index?] at h ⊢
  split at h
  case isTrue => cases h
  case isFalse hid =>
    have hlt := (List.getElem?_eq_some_iff.mp (Option.join_eq_some_iff.mp h)).1
    rw [if_neg hid, KList.setIndex, getElem?_set_self hlt]
    rfl

end Indexes

/-- The list has the index by position, and every index that it has is one. -/
structure Mem.Placed (m : Mem Dirent) (els : List Dirent) (id : ℕ) : Prop where
  index : m.list.index? id ≠ none
  placed : ∀ i, some i ∈ m.list.indexes → i.Placed els

/-- The index by position is up to date and has the array `a`. -/
structure Mem.Ready (m : Mem Dirent) (els : List Dirent) (id : ℕ) (a : List Dirent) : Prop where
  index : ∃ i, m.list.index? id = some i ∧ i.upToDate = true ∧ i.elements = some a ∧
    i.compFunc = compDirentPos
  count : m.list.numberOfElements = a.length
  perm : a.Perm els
  sorted : Sorted byPos a

/-- The index by position is up to date, or can be brought up to date. -/
def Mem.CanIndex (m : Mem Dirent) (g : Grant Dirent) (id : ℕ) : Prop :=
  ∀ i, m.list.index? id = some i →
    i.upToDate = true ∨ m.list.numberOfElements = 0 ∨ g.table id = true

namespace Mem.Dirents

variable {m : Mem Dirent} {c : List (ℕ × Dirent)} {id : ℕ}

theorem placed_withIndexes (h : m.Dirents c) {is : List (Option (Index Dirent))}
    (hp : (m.withIndexes is).Placed (c.map Prod.snd) id) : (m.withIndexes is).Dirents c := by
  refine h.withIndexes fun i hi => ?_
  rw [h.count, ← length_map (f := Prod.snd)]
  exact (hp.placed i hi).sized

theorem refresh (h : m.Dirents c) (hp : m.Placed (c.map Prod.snd) id)
    (hwindow : Window (c.map Prod.snd)) (g : Grant Dirent) {i : Index Dirent}
    (hi : m.list.index? id = some i) :
    ∃ m' i' ok, Ovlfs.refresh m g id i = .ok (m', i', ok) ∧ m'.Dirents c ∧
      m'.Placed (c.map Prod.snd) id ∧ i'.compFunc = compDirentPos ∧
      (ok = true ↔ i.upToDate = true ∨ m.list.numberOfElements = 0 ∨ g.table id = true) ∧
      (ok = true → (c = [] ∧ i'.elements = none ∧ m'.list.numberOfElements = 0) ∨
        ∃ a, a ≠ [] ∧ i'.elements = some a ∧ m'.Ready (c.map Prod.snd) id a) := by
  have hplaced := hp.placed i (KList.mem_of_index? hi)
  rw [Ovlfs.refresh]
  split
  case isTrue hup =>
    obtain ⟨hne, a, ha, hperm, hs⟩ := hplaced.entries hup
    refine ⟨m, i, true, rfl, h, hp, hplaced.compFunc, iff_of_true rfl (.inl hup),
      fun _ => .inr ⟨a, ?_, ha, ?_⟩⟩
    · rintro rfl
      exact hne hperm.nil_eq.symm
    · refine ⟨⟨i, hi, hup, ha, hplaced.compFunc⟩, ?_, hperm, hs⟩
      rw [h.count, hperm.length_eq, length_map]
  case isFalse hup =>
    obtain ⟨i', ok, hupd, hi', hgrant, hready, hempty⟩ :=
      Index.Placed.update h.linked h.count hwindow
      hplaced.compFunc (g.table (id : ℤ).toNat) (Bool.eq_false_iff.mpr hup)
    have hp' : (m.withIndexes (m.list.indexes.set ((id : ℤ).toNat - 1) (some i'))).Placed
        (c.map Prod.snd) id := by
      refine ⟨?_, fun j hj => ?_⟩
      · rw [show (m.withIndexes _).list = m.list.setIndex id (some i') from rfl, index?_setIndex hi]
        exact Option.some_ne_none _
      · rcases mem_or_eq_of_mem_set hj with hj | hj
        · exact hp.placed j hj
        · cases hj
          exact hi'
    refine ⟨_, i', ok, ?_, h.placed_withIndexes hp', hp', hi'.compFunc, ?_, fun hok => ?_⟩
    · rw [hupd]
      rfl
    · rw [hgrant, h.count, length_eq_zero_iff]
      exact (or_iff_right hup).symm
    · rcases eq_or_ne c [] with hc | hc
      · exact .inl ⟨hc, hempty hc, by rw [Mem.withIndexes, h.count, hc]; rfl⟩
      · obtain ⟨hne, a, ha, hperm, hs⟩ := hi'.entries (hready hok hc)
        refine .inr ⟨a, ?_, ha, ⟨i', index?_setIndex hi i', hready hok hc, ha, hi'.compFunc⟩, ?_,
          hperm, hs⟩
        · rintro rfl
          exact hne hperm.nil_eq.symm
        · rw [Mem.withIndexes, h.count, hperm.length_eq, length_map]

/-! The operations on the list. -/

theorem placed_create (g : DirGrant) : ∃ r, Directory.createDirentList g = .ok r ∧
    ∀ m id, r = some (m, id) → m.Dirents [] ∧ m.Placed [] id := by
  obtain ⟨r, hres, hr⟩ := create_indexes g
  refine ⟨r, hres, fun m id heq => ?_⟩
  obtain ⟨hm, rfl, his⟩ := hr m id heq
  refine ⟨hm, ?_, fun i hi => ?_⟩
  · rw [index?_ne_none_iff, his]
    exact ⟨by decide, rfl⟩
  · rw [his] at hi
    obtain rfl := Option.some.inj (mem_singleton.mp hi)
    exact .of_stale rfl rfl

theorem placed_congr {m' : Mem Dirent} {els : List Dirent} (hp : m.Placed els id)
    (his : m'.list.indexes = m.list.indexes) : m'.Placed els id := by
  refine ⟨?_, fun i hi => hp.placed i (his ▸ hi)⟩
  rw [index?_ne_none_iff, his]
  exact index?_ne_none_iff.mp hp.index

theorem placed_each {m' : Mem Dirent} {els els' : List Dirent} (hp : m.Placed els id)
    {f : ℕ → Index Dirent → Except Fault (Index Dirent)}
    (hf : ∀ k i, i.Placed els → ∃ i', f k i = .ok i' ∧ i'.Placed els')
    (his : eachIndex f 1 m.list.indexes = .ok m'.list.indexes) : m'.Placed els' id := by
  refine ⟨?_, ?_⟩
  · rw [index?_ne_none_iff, eachIndex_isSome his]
    exact index?_ne_none_iff.mp hp.index
  · obtain ⟨is, his', hplaced⟩ := eachIndex_spec hf 1 hp.placed
    obtain rfl := Except.ok.inj (his.symm.trans his')
    exact hplaced

theorem placed_insert (h : m.Dirents c) (hp : m.Placed (c.map Prod.snd) id) {g : Grant Dirent}
    (hg : g.node = true) (hfree : ∀ x ∈ c, x.1 ≠ g.addr) {e : Dirent}
    (hwindow : Window (e :: c.map Prod.snd)) :
    ∃ m', insertIntoListSorted m g e = .ok (m', some e) ∧ m'.Dirents ((g.addr, e) :: c) ∧
      m'.Placed (e :: c.map Prod.snd) id := by
  obtain ⟨m', hres, hm', his⟩ := h.insert_indexes hg hfree e
  rw [h.count, ← length_map (f := Prod.snd)] at his
  exact ⟨m', hres, hm', placed_each hp (fun k _ hi => hi.insert hwindow (g.table k)) his⟩

theorem placed_remove (h : m.Dirents c) (hp : m.Placed (c.map Prod.snd) id) (g : Grant Dirent)
    (name : Name) :
    (removeElement m g (Directory.key name) = .ok (m, .absent) ∧
      ∀ e ∈ c.map Prod.snd, e.name ≠ name) ∨
    ∃ m' a b q e, removeElement m g (Directory.key name) = .ok (m', .data e) ∧
      c = a ++ (q, e) :: b ∧ e.name = name ∧ m'.Dirents (a ++ b) ∧
      m'.Placed ((a ++ b).map Prod.snd) id := by
  rcases h.remove_indexes g name with habsent | ⟨m', a, b, q, e, hres, hc, hname, hm', his⟩
  · exact .inl habsent
  · rw [h.count, ← length_map (f := Prod.snd)] at his
    have hels : (c.map Prod.snd).Perm (e :: (a ++ b).map Prod.snd) := by
      rw [hc]
      exact perm_split a b q e
    exact .inr ⟨m', a, b, q, e, hres, hc, hname, hm',
      placed_each hp (fun k _ hi => hi.delete hels (g.table k)) his⟩

end Mem.Dirents

/-! ## The next entry -/

theorem bsearch_pos {a : List Dirent} (hne : a ≠ []) (hs : Sorted byPos a) (hwindow : Window a)
    (data : Dirent) :
    (∃ loc x, bsearch compDirentPos a.length data (some a) = .ok (some loc) ∧ a[loc]? = some x ∧
      x.pos = data.pos) ∨
    (bsearch compDirentPos a.length data (some a) = .ok none ∧ ∀ x ∈ a, x.pos ≠ data.pos) := by
  have hpos := length_pos_of_ne_nil hne
  obtain ⟨loc, d, hbis, -⟩ := bisect_total (compDirentPos data) (le_refl a.length) hpos (le_refl _)
    (Nat.le_succ a.length)
  obtain ⟨x, hx, rfl⟩ := bisect_answer hbis
  have hres : bsearch compDirentPos a.length data (some a) =
      .ok (if compDirentPos data x = 0 then some loc else none) := by
    rw [bsearch]
    simp only [if_neg (Nat.ne_of_gt hpos), hbis]
    rfl
  rw [hres]
  by_cases hzero : compDirentPos data x = 0
  · exact .inl ⟨loc, x, by rw [if_pos hzero], hx, (compDirentPos_eq_zero.mp hzero).symm⟩
  · refine .inr ⟨by rw [if_neg hzero], fun y hy heq => hzero ?_⟩
    -- an entry at the position would have been found in its place
    have hsame : ∀ z ∈ a, compDirentPos data z = byPos y z := by
      intro z hz
      rw [← compDirentPos_eq (hwindow y hy z hz) (hwindow z hz y hy), compDirentPos, compDirentPos,
        heq]
    obtain ⟨loc', x', pos, hbis', -, hx', -, -, -, hall⟩ := bisect_place byPos_totalPreorder
      (le_refl a.length) hpos (by rw [take_length]; exact hs) y
    rw [← bisect_congr hsame, hbis] at hbis'
    obtain ⟨rfl, hd⟩ := Prod.mk.inj (Option.some.inj hbis')
    obtain rfl := Option.some.inj (hx.symm.trans hx')
    by_contra hnot
    obtain ⟨k, hk, rfl⟩ := mem_iff_getElem.mp hy
    refine hall (hd ▸ hnot) k hk _ (getElem?_eq_getElem hk) ?_
    rw [byPos, sub_self]

namespace Mem.Ready

variable {m : Mem Dirent} {els a : List Dirent} {id : ℕ}

theorem readIndex (h : m.Ready els id a) (g : Grant Dirent) (nth : ℤ) (hlow : 1 ≤ nth)
    (hhigh : nth ≤ a.length) :
    ∃ x, a[nth.toNat - 1]? = some x ∧ Ovlfs.readIndex m g id nth = .ok (m, .ok x) := by
  obtain ⟨i, hi, hup, ha, -⟩ := h.index
  have hlt : nth.toNat - 1 < a.length := by omega
  refine ⟨_, getElem?_eq_getElem hlt, ?_⟩
  have hrange : ¬ (nth < 1 ∨ (m.list.numberOfElements : ℤ) < nth) := by
    rw [h.count]
    omega
  rw [Ovlfs.readIndex, if_neg hrange]
  simp only [hi, refresh, hup, if_true]
  change (readArr i.elements >>= fun a => _) = _
  rw [ha]
  change (readArr a[nth.toNat - 1]? >>= fun e => _) = _
  rw [getElem?_eq_getElem hlt]
  rfl

/-- The loop of `ovlfs_stg1_find_next` between two places: what is before `low` is before the
position, and what is behind `high` is not; `best` is the first one of these. -/
theorem findBest (h : m.Ready els id a) (g : ℤ → Grant Dirent) (pos low high : ℤ)
    (best : Option Dirent) (hlow : 1 ≤ low) (hle : low ≤ high + 1) (hhigh : high ≤ a.length)
    (hbefore : ∀ e ∈ a.take (low.toNat - 1), (e.pos.toNat : ℤ) < pos)
    (hbehind : ∀ e ∈ a.drop high.toNat, pos ≤ e.pos.toNat) (hbest : best = a[high.toNat]?) :
    ∃ k, Directory.findBest g id pos m low high best = .ok (m, a[k]?) ∧
      (∀ e ∈ a.take k, (e.pos.toNat : ℤ) < pos) ∧ ∀ e ∈ a.drop k, pos ≤ e.pos.toNat := by
  rw [Directory.findBest]
  split
  case isTrue hgo =>
    obtain ⟨cur, hcur⟩ : ∃ cur, cur = (low + high) / 2 := ⟨_, rfl⟩
    obtain ⟨x, hx, hread⟩ := h.readIndex (g cur) cur (by omega) (by omega)
    obtain ⟨hlt, rfl⟩ := List.getElem?_eq_some_iff.mp hx
    simp only [← hcur, hread, bind, Except.bind]
    split
    case isTrue hpos =>
      -- the entry is a candidate, and so is all behind it
      have hdrop : ∀ e ∈ a.drop (cur.toNat - 1), pos ≤ e.pos.toNat := by
        intro e he
        rw [drop_eq_getElem_cons hlt] at he
        rcases mem_cons.mp he with rfl | he
        · exact hpos
        · have hsorted := h.sorted.sublist (drop_sublist (cur.toNat - 1) a)
          rw [drop_eq_getElem_cons hlt] at hsorted
          have := (pairwise_cons.mp hsorted).1 e he
          rw [byPos] at this
          omega
      have hplace : (cur - 1).toNat = cur.toNat - 1 := by omega
      refine findBest h g pos low (cur - 1) _ hlow (by omega) (by omega) hbefore ?_ ?_
      · rw [hplace]
        exact hdrop
      · rw [hplace, hx]
    case isFalse hpos =>
      -- the entry is before the position, and so is all before it
      have htake : ∀ e ∈ a.take cur.toNat, (e.pos.toNat : ℤ) < pos := by
        intro e he
        have hsplit : cur.toNat = cur.toNat - 1 + 1 := by omega
        rw [hsplit, take_succ_eq_append_getElem hlt] at he
        rcases mem_append.mp he with he | he
        · obtain ⟨k, hk, rfl⟩ := mem_iff_getElem.mp he
          rw [getElem_take] at *
          rw [length_take] at hk
          have := pairwise_iff_getElem.mp h.sorted k (cur.toNat - 1) (by omega) hlt (by omega)
          rw [byPos] at this
          omega
        · obtain rfl := mem_singleton.mp he
          omega
      refine findBest h g pos (cur + 1) high best (by omega) (by omega) hhigh ?_ hbehind hbest
      rw [show (cur + 1).toNat - 1 = cur.toNat by omega]
      exact htake
  case isFalse hend =>
    refine ⟨high.toNat, by rw [hbest], ?_, hbehind⟩
    rw [show high.toNat = low.toNat - 1 by omega]
    exact hbefore
termination_by (high + 1 - low).toNat

end Mem.Ready

def Dirent.position (e : Dirent) : ℤ := e.pos.toNat

/-- An entry that has the low 32 bits of a position is at that position, or is the first one and the
position is a negative number. -/
def Seekable (els : List Dirent) (pos : ℤ) : Prop :=
  ∀ e ∈ els, e.pos = BitVec.ofInt 32 pos →
    e.position = pos ∨ pos < 0 ∧ ∀ e' ∈ els, e.position ≤ e'.position

theorem Seekable.of_lt {els : List Dirent} {pos : ℤ} (hlow : 0 ≤ pos) (hhigh : pos < 2 ^ 32) :
    Seekable els pos := by
  intro e _ heq
  left
  rw [Dirent.position, heq, BitVec.toNat_ofInt]
  omega

theorem next_iff_seekable {els : List Dirent} {pos : ℤ} {e : Dirent} (he : e ∈ els)
    (hpos : e.pos = BitVec.ofInt 32 pos) :
    Cursor.Next Dirent.position els pos (some e) ↔ Seekable els pos := by
  constructor
  · rintro ⟨-, hle, hleast⟩ e' - hpos'
    have hsame : e'.position = e.position := by rw [Dirent.position, Dirent.position, hpos, hpos']
    rw [hsame]
    rcases hle.eq_or_lt with heq | hlt
    · exact .inl heq.symm
    · -- the position is another number with the low bits of one that has no more of them
      have hneg : pos < 0 := by
        by_contra hnot
        rw [Dirent.position, hpos, BitVec.toNat_ofInt] at hlt
        omega
      refine .inr ⟨hneg, fun e'' he'' => hleast e'' he'' ?_⟩
      rw [Dirent.position]
      omega
  · intro hseek
    rcases hseek e he hpos with heq | ⟨hneg, hleast⟩
    · exact ⟨he, heq.ge, fun e' _ hle => heq.trans_le hle⟩
    · refine ⟨he, ?_, fun e' he' _ => hleast e' he'⟩
      rw [Dirent.position]
      omega

namespace Mem.Dirents

variable {m : Mem Dirent} {c : List (ℕ × Dirent)} {id : ℕ}

/-- **`ovlfs_stg1_find_next` finds the next entry** if the index is up to date or can be made, and
if the low 32 bits of the position do not stand for another one. -/
theorem findNext_placed (h : m.Dirents c) (hp : m.Placed (c.map Prod.snd) id)
    (hwindow : Window (c.map Prod.snd)) (g : DirGrant) (pos : ℤ) (result : Option Dirent) :
    ∃ m' r, Directory.findNext m g id pos result = .ok (m', r) ∧ m'.Dirents c ∧
      m'.Placed (c.map Prod.snd) id ∧ ((∃ dent, r = .ok dent) ↔ m.CanIndex g.find id) ∧
      ∀ dent, r = .ok dent →
        (Cursor.Next Dirent.position (c.map Prod.snd) pos dent ↔
          Seekable (c.map Prod.snd) pos) := by
  obtain ⟨i, hi⟩ := Option.ne_none_iff_exists'.mp hp.index
  obtain ⟨m', i', ok, hrefresh, h', hp', hcmp, hgrant, hready⟩ := h.refresh hp hwindow g.find hi
  have hcan : ok = true ↔ m.CanIndex g.find id := by
    rw [hgrant, Mem.CanIndex, hi]
    exact ⟨fun h j hj => Option.some.inj hj ▸ h, fun h => h i rfl⟩
  rw [Directory.findNext]
  cases ok with
  | false =>
    have hsearch : ∀ data, Ovlfs.searchIndex m g.find id data = .ok (m', .error .enomem) := by
      intro data
      simp only [Ovlfs.searchIndex, hi, hrefresh, bind, Except.bind]
      rfl
    rw [hsearch]
    refine ⟨m', .error .enomem, rfl, h', hp', iff_of_false ?_ fun h => ?_, fun _ heq => ?_⟩
    · rintro ⟨dent, heq⟩
      cases heq
    · exact absurd (hcan.mpr h) Bool.false_ne_true
    · cases heq
  | true =>
    have hsearch :
        ∀ {data r}, bsearch i'.compFunc m'.list.numberOfElements data i'.elements = .ok r →
        Ovlfs.searchIndex m g.find id data =
          .ok (m', r.elim (.error .enoent) fun pos => .ok (pos + 1)) := by
      intro data r hr
      simp only [Ovlfs.searchIndex, hi, hrefresh, bind, Except.bind, if_true, hr]
      cases r with
      | none => rfl
      | some pos => rfl
    rcases hready rfl with ⟨rfl, hnone, hzero⟩ | ⟨a, hne, ha, hr⟩
    · -- no entries
      refine ⟨m', .ok none, ?_, h', hp', iff_of_true ⟨none, rfl⟩ (hcan.mp rfl), ?_⟩
      · rw [hsearch (r := none) (by rw [hnone]; rfl)]
        simp only [Option.elim_none, bind, Except.bind, pure, Except.pure, hzero]
        rw [Directory.findBest, if_neg (by decide)]
      · rintro dent heq
        cases heq
        exact iff_of_true (by rintro _ ⟨⟩) (by rintro _ ⟨⟩)
    · have hwindow' : Window a := hwindow.of_subset fun e he => hr.perm.mem_iff.mp he
      rw [hcmp, ha, hr.count] at hsearch
      rcases bsearch_pos hne hr.sorted hwindow' ⟨1, default, BitVec.ofInt 32 pos⟩ with
        ⟨loc, x, hfound, hx, hpos⟩ | ⟨hmissed, hall⟩
      · obtain ⟨hlt, rfl⟩ := List.getElem?_eq_some_iff.mp hx
        obtain ⟨y, hy, hread⟩ := hr.readIndex (g.read ((loc + 1 : ℕ) : ℤ)) (loc + 1 : ℕ)
          (by omega) (by omega)
        have hxy : y = a[loc] := by
          rw [show ((loc + 1 : ℕ) : ℤ).toNat - 1 = loc by omega, hx] at hy
          exact (Option.some.inj hy).symm
        subst hxy
        refine ⟨m', .ok (some a[loc]), ?_, h', hp', iff_of_true ⟨_, rfl⟩ (hcan.mp rfl), ?_⟩
        · rw [hsearch hfound]
          simp only [Option.elim_some, bind, Except.bind, pure, Except.pure, hread]
        · rintro dent heq
          cases heq
          exact next_iff_seekable (hr.perm.mem_iff.mp (getElem_mem hlt)) hpos
      · obtain ⟨k, hbest, hbefore, hbehind⟩ := hr.findBest g.read pos 1 a.length none le_rfl
          (by omega) le_rfl (by rintro _ ⟨⟩) (by simp) (by simp)
        refine ⟨m', .ok a[k]?, ?_, h', hp', iff_of_true ⟨_, rfl⟩ (hcan.mp rfl), ?_⟩
        · rw [hsearch hmissed]
          simp only [Option.elim_none, bind, Except.bind, pure, Except.pure, hr.count, hbest]
        · rintro dent heq
          cases heq
          -- no entry has the low bits of the position
          refine iff_of_true ?_ fun e he heq => absurd heq (hall e (hr.perm.mem_iff.mpr he))
          refine Cursor.Next.of_sorted (fun e => hr.perm.mem_iff.symm) ?_ hbefore hbehind
          refine hr.sorted.imp fun hle => ?_
          rw [byPos] at hle
          rw [Dirent.position, Dirent.position]
          omega

end Mem.Dirents

end Ovlfs
