import Mathlib.Data.List.Nodup
import ReadingComment.Ovlfs.Directory
import ReadingComment.Ovlfs.PrimaryIndex

/-!
# What a directory reports

The entries of a directory have different names, the inode counts the marked ones, and
a lookup reports what the last successful operations made of a name (`Report`): the
inode it was added or renamed with, and whether it was unlinked or renamed away since.
`Directory.Good` says so of the entries that are on the list.

One failure is not without effect. Adding a name whose entry is marked removes the entry
first; when there is no memory for the new one, the name is not reported any more.
-/

namespace Ovlfs

open Function List Ordered

/-! ## Names in order -/

theorem strncmp_swap (count : ℕ) (cs ct : List UInt8) :
    strncmp count cs ct < 0 ↔ 0 < strncmp count ct cs := by
  induction count generalizing cs ct with
  | zero => simp only [strncmp, lt_irrefl]
  | succ count ih =>
    match cs, ct with
    | [], [] => simp only [strncmp, lt_irrefl]
    | [], _ :: _ => simp only [strncmp, lt_irrefl]
    | _ :: _, [] => simp only [strncmp, lt_irrefl]
    | c :: cs, d :: ct =>
      rw [strncmp, strncmp]
      rcases eq_or_ne c d with rfl | hne
      · simp only [ne_eq, not_true_eq_false, if_false]
        split
        · simp only [lt_irrefl]
        · exact ih cs ct
      · rw [if_pos hne, if_pos hne.symm]
        omega

theorem strncmp_trans {count : ℕ} {as bs cs : List UInt8} (ha : as.length = count)
    (hb : bs.length = count) (hc : cs.length = count) (hab : strncmp count as bs ≤ 0)
    (hbc : strncmp count bs cs ≤ 0) : strncmp count as cs ≤ 0 := by
  induction count generalizing as bs cs with
  | zero => simp only [strncmp, le_refl]
  | succ count ih =>
    obtain ⟨a, as, rfl⟩ := exists_cons_of_length_eq_add_one ha
    obtain ⟨b, bs, rfl⟩ := exists_cons_of_length_eq_add_one hb
    obtain ⟨c, cs, rfl⟩ := exists_cons_of_length_eq_add_one hc
    rw [strncmp] at hab hbc ⊢
    rcases eq_or_ne a b with rfl | hne
    · rcases eq_or_ne a c with rfl | hne'
      · simp only [ne_eq, not_true_eq_false, if_false] at hab hbc ⊢
        split at hab
        · rename_i hzero
          simp only [hzero, if_true, le_refl]
        · rename_i hzero
          rw [if_neg hzero] at hbc ⊢
          exact ih (Nat.succ.inj ha) (Nat.succ.inj hb) (Nat.succ.inj hc) hab hbc
      · rw [if_pos hne'] at hbc ⊢
        exact hbc
    · rw [if_pos hne] at hab
      rcases eq_or_ne b c with rfl | hne'
      · rw [if_pos hne]
        exact hab
      · rw [if_pos hne'] at hbc
        have hlt : a.toNat < b.toNat := by
          apply lt_of_le_of_ne (by omega)
          exact fun heq => hne (UInt8.toNat_inj.mp heq)
        have hac : a ≠ c := by
          rintro rfl
          omega
        rw [if_pos hac]
        omega

theorem strncmp_eq_zero {count : ℕ} {cs ct : List UInt8} (hs : cs.length = count)
    (ht : ct.length = count) (hnul : 0 ∉ cs) : strncmp count cs ct = 0 ↔ cs = ct := by
  induction count generalizing cs ct with
  | zero =>
    rw [eq_nil_of_length_eq_zero hs, eq_nil_of_length_eq_zero ht]
    simp only [strncmp]
  | succ count ih =>
    obtain ⟨c, cs, rfl⟩ := exists_cons_of_length_eq_add_one hs
    obtain ⟨d, ct, rfl⟩ := exists_cons_of_length_eq_add_one ht
    rw [strncmp]
    rcases eq_or_ne c d with rfl | hne
    · have hzero : c ≠ 0 := by
        rintro rfl
        exact hnul (mem_cons_self ..)
      simp only [ne_eq, not_true_eq_false, if_false, if_neg hzero, List.cons.injEq, true_and]
      exact ih (Nat.succ.inj hs) (Nat.succ.inj ht) fun h => hnul (mem_cons_of_mem _ h)
    · rw [if_pos hne]
      constructor
      · intro heq
        exact absurd (UInt8.toNat_inj.mp (by omega)) hne
      · intro heq
        exact absurd (List.cons.inj heq).1 hne

theorem compDirent_totalPreorder : TotalPreorder compDirent := by
  constructor
  · intro e f
    rw [compDirent, compDirent]
    rcases eq_or_ne e.name.bytes.length f.name.bytes.length with heq | hne
    · rw [if_pos heq, if_pos heq.symm, ← heq]
      exact strncmp_swap _ _ _
    · rw [if_neg hne, if_neg hne.symm]
      omega
  · intro e f g hef hfg
    rw [compDirent] at hef hfg ⊢
    rcases eq_or_ne e.name.bytes.length f.name.bytes.length with heq | hne
    · rw [if_pos heq] at hef
      rcases eq_or_ne f.name.bytes.length g.name.bytes.length with heq' | hne'
      · rw [if_pos heq', ← heq] at hfg
        rw [if_pos (heq.trans heq')]
        exact strncmp_trans rfl heq.symm (heq.trans heq').symm hef hfg
      · rw [if_neg hne'] at hfg
        rw [if_neg fun h => hne' (heq.symm.trans h)]
        omega
    · rw [if_neg hne] at hef
      rcases eq_or_ne f.name.bytes.length g.name.bytes.length with heq' | hne'
      · rw [if_neg fun h => hne (h.trans heq'.symm)]
        omega
      · rw [if_neg hne'] at hfg
        rw [if_neg (by omega)]
        omega

theorem compDirent_eq_zero {e f : Dirent} : compDirent e f = 0 ↔ e.name = f.name := by
  rw [compDirent, Name.ext_iff]
  rcases eq_or_ne e.name.bytes.length f.name.bytes.length with heq | hne
  · rw [if_pos heq]
    exact strncmp_eq_zero rfl heq.symm e.name.noNul
  · rw [if_neg hne]
    constructor
    · intro h
      omega
    · intro h
      exact absurd (congrArg List.length h) hne

/-! ## The list of a directory -/

/-- The nodes of a list of entries. -/
structure Mem.Dirents (m : Mem Dirent) (c : List (ℕ × Dirent)) : Prop where
  cached : World.Cached compDirent ⟨m, c.map fun x => (x.2, true)⟩ c
  search : m.list.searchFunc = some compDirent
  sized : ∀ i, some i ∈ m.list.indexes → i.Sized m.list.numberOfElements
  sorted : m.list.indexMode = .sorted → m.list.firstElement ≠ none

namespace Mem.Dirents

variable {m : Mem Dirent} {c : List (ℕ × Dirent)} {g : Grant Dirent} {name : Name}

theorem linked (h : m.Dirents c) : Linked m.heap.node m.list.firstElement c := h.cached.holds.linked

theorem count (h : m.Dirents c) : m.list.numberOfElements = c.length := h.cached.holds.count

theorem elements (c : List (ℕ × Dirent)) :
    World.elements ⟨m, c.map fun x => (x.2, true)⟩ = c.map Prod.snd := by
  rw [World.elements, map_map]
  rfl

theorem alone (h : m.Dirents c) : ∀ x ∈ c, m.heap.block x.1 = 1 := by
  have hitems := forall₂_map_right_iff.mp h.cached.holds.items
  exact fun x hx => (forall₂_same.mp hitems x hx).2 rfl

theorem withIndexes (h : m.Dirents c) {is : List (Option (Index Dirent))}
    (hsized : ∀ i, some i ∈ is → i.Sized m.list.numberOfElements) : (m.withIndexes is).Dirents c :=
  ⟨⟨⟨h.linked, h.count, h.cached.holds.items, primary_of_not_indexed rfl⟩, h.cached.compare,
    h.cached.reflects⟩, h.search, hsized, h.sorted⟩

theorem sizedIndexes (h : m.Dirents c) : m.SizedIndexes c := ⟨h.linked, h.count, h.sized⟩

theorem create_indexes (g : DirGrant) : ∃ r, Directory.createDirentList g = .ok r ∧
    ∀ m i, r = some (m, i) → m.Dirents [] ∧ i = 1 ∧
      m.list.indexes = [some ⟨compDirentPos, false, false, none⟩] := by
  rw [Directory.createDirentList]
  have hempty : ∀ is : List (Option (Index Dirent)), (∀ i, some i ∈ is → i.upToDate = false) →
      (⟨.unused, { createList (some compDirent) (some compDirent) with indexes := is }⟩ :
        Mem Dirent).Dirents [] := fun is his =>
    ⟨⟨⟨rfl, rfl, .nil, primary_of_not_indexed rfl⟩, rfl, reflects_of_not_indexed rfl⟩, rfl,
      fun i hi => .of_stale (his i hi), by rintro ⟨⟩⟩
  split
  · have hadd : addIndex ⟨.unused, createList (some compDirent) (some compDirent)⟩ g.index
        compDirentPos false = if g.index.slot then
          if g.index.info then
            .ok (⟨.unused, { createList (some compDirent) (some compDirent) with
              indexes := [some ⟨compDirentPos, false, false, none⟩] }⟩, .ok 1)
          else .ok (⟨.unused, { createList (some compDirent) (some compDirent) with
            indexes := [none] }⟩, .error .enomem)
        else .ok (⟨.unused, createList (some compDirent) (some compDirent)⟩, .error .enomem) := by
      rw [addIndex]
      cases g.index.slot <;> cases g.index.info <;> rfl
    rw [hadd]
    split
    · split
      · refine ⟨_, rfl, ?_⟩
        rintro m i heq
        cases heq
        refine ⟨hempty _ ?_, rfl, rfl⟩
        intro i hi
        obtain rfl := Option.some.inj (mem_singleton.mp hi)
        rfl
      · exact ⟨none, rfl, by rintro _ _ ⟨⟩⟩
    · exact ⟨none, rfl, by rintro _ _ ⟨⟩⟩
  · exact ⟨none, rfl, by rintro _ _ ⟨⟩⟩

theorem create (g : DirGrant) : ∃ r, Directory.createDirentList g = .ok r ∧
    ∀ m i, r = some (m, i) → m.Dirents [] := by
  obtain ⟨r, hres, hr⟩ := create_indexes g
  exact ⟨r, hres, fun m i heq => (hr m i heq).1⟩

section

variable (h : m.Dirents c)

include h

theorem find_indexes (g : Grant Dirent) (name : Name) :
    ∃ m' x, searchForElement m g (Directory.key name) = .ok (m', x) ∧ m'.Dirents c ∧
      (m'.heap = m.heap ∧ m'.list.indexes = m.list.indexes) ∧
      (∀ e, x = some e → e ∈ c.map Prod.snd ∧ e.name = name) ∧
      (x = none → ∀ e ∈ c.map Prod.snd, e.name ≠ name) := by
  have hsearches : m.list.Searches := .inr (by rw [h.search]; exact Option.some_ne_none _)
  obtain ⟨a, mode, x, hres, hl, hmode, hfound, hmissed⟩ :=
    h.cached.searchForElement (g := g) (v := Directory.key name) (.inr hsearches)
  refine ⟨⟨m.heap, m.list.reindexed a mode⟩, x, hres,
    ⟨h.cached.reindexed hl, h.search, h.sized, fun hs => h.sorted (hmode hs)⟩, ⟨rfl, rfl⟩, ?_, ?_⟩
  · intro e he
    obtain ⟨hmem, hzero⟩ := hfound compDirent h.search e he
    rw [elements] at hmem
    exact ⟨hmem, (compDirent_eq_zero.mp hzero).symm⟩
  · intro hnone e he hname
    have hne := hmissed compDirent h.search compDirent_totalPreorder (fun _ hs => hs) hnone e
      (by rw [elements]; exact he)
    exact hne (compDirent_eq_zero.mpr hname.symm)

theorem find (g : Grant Dirent) (name : Name) :
    ∃ m' x, searchForElement m g (Directory.key name) = .ok (m', x) ∧ m'.Dirents c ∧
      m'.heap = m.heap ∧ (∀ e, x = some e → e ∈ c.map Prod.snd ∧ e.name = name) ∧
      (x = none → ∀ e ∈ c.map Prod.snd, e.name ≠ name) := by
  obtain ⟨m', x, hres, hm', ⟨hheap, -⟩, hx⟩ := h.find_indexes g name
  exact ⟨m', x, hres, hm', hheap, hx⟩

theorem insert_indexes (hg : g.node = true) (hfree : ∀ x ∈ c, x.1 ≠ g.addr) (e : Dirent) :
    ∃ m', insertIntoListSorted m g e = .ok (m', some e) ∧ m'.Dirents ((g.addr, e) :: c) ∧
      insertIndexes m.list.numberOfElements g e m.list.indexes = .ok m'.list.indexes := by
  obtain ⟨is, his, hsized⟩ := insertIndexes_sized h.sized g e
  obtain ⟨a, mode, hres, hc⟩ := h.cached.insertIntoListSorted compDirent_totalPreorder hfree hg
    h.sorted his
  exact ⟨_, hres, ⟨hc, h.search, hsized, fun _ => Option.some_ne_none _⟩, his⟩

theorem insert (hg : g.node = true) (hfree : ∀ x ∈ c, x.1 ≠ g.addr) (e : Dirent) :
    ∃ m', insertIntoListSorted m g e = .ok (m', some e) ∧ m'.Dirents ((g.addr, e) :: c) := by
  obtain ⟨m', hres, hm', -⟩ := h.insert_indexes hg hfree e
  exact ⟨m', hres, hm'⟩

theorem remove_indexes (g : Grant Dirent) (name : Name) :
    (removeElement m g (Directory.key name) = .ok (m, .absent) ∧
      ∀ e ∈ c.map Prod.snd, e.name ≠ name) ∨
    ∃ m' a b q e, removeElement m g (Directory.key name) = .ok (m', .data e) ∧
      c = a ++ (q, e) :: b ∧ e.name = name ∧ m'.Dirents (a ++ b) ∧
      deleteIndexes m.list.numberOfElements g e m.list.indexes = .ok m'.list.indexes := by
  have hsearch : m.list.search (Directory.key name) = .ok (compDirent (Directory.key name)) := by
    rw [KList.search, h.search]
  rcases removeElement_spec (g := g) hsearch h.linked h.count with
    ⟨hres, hall⟩ | ⟨a, b, q, n, hin, hmatch, -, hres⟩
  · refine .inl ⟨hres, ?_⟩
    intro e he hname
    obtain ⟨x, hx, rfl⟩ := mem_map.mp he
    exact hall x hx (compDirent_eq_zero.mpr hname.symm)
  · obtain ⟨is, his, hsized⟩ := deleteIndexes_sized h.sized g n.element
    have hblock := h.alone (q, n.element) (by
      rw [hin.split]
      exact mem_append_right _ (mem_cons_self ..))
    have hitems : ∀ l : List (ℕ × Dirent), (∀ x ∈ l, x ∈ c) →
        List.Forall₂ (Matches m.heap.block) l (l.map fun x => (x.2, true)) := by
      intro l hl
      rw [forall₂_map_right_iff, forall₂_same]
      exact fun x hx => ⟨rfl, fun _ => h.alone x (hl x hx)⟩
    have ha := hitems a fun x hx => by
      rw [hin.split]
      exact mem_append_left _ hx
    have hb := hitems b fun x hx => by
      rw [hin.split]
      exact mem_append_right _ (mem_cons_of_mem _ hx)
    obtain ⟨node, first, last, hdrop, hc⟩ := h.cached.removed hin.split ha hb
      (dropFound_spec h.linked hin hblock his)
    rw [← map_append] at hc
    exact .inr ⟨_, a, b, q, n.element, hres.trans hdrop, hin.split,
      (compDirent_eq_zero.mp hmatch).symm, ⟨hc, h.search, hsized, by rintro ⟨⟩⟩, his⟩

theorem remove (g : Grant Dirent) (name : Name) :
    (removeElement m g (Directory.key name) = .ok (m, .absent) ∧
      ∀ e ∈ c.map Prod.snd, e.name ≠ name) ∨
    ∃ m' a b q e, removeElement m g (Directory.key name) = .ok (m', .data e) ∧
      c = a ++ (q, e) :: b ∧ e.name = name ∧ m'.Dirents (a ++ b) := by
  rcases h.remove_indexes g name with habsent | ⟨m', a, b, q, e, hres, hc, hname, hm', -⟩
  · exact .inl habsent
  · exact .inr ⟨m', a, b, q, e, hres, hc, hname, hm'⟩

theorem searchIndex (g : Grant Dirent) (id : ℤ) (data : Dirent) :
    ∃ m' r, searchIndex m g id data = .ok (m', r) ∧ m'.Dirents c := by
  obtain ⟨is, r, hres, hsized⟩ := searchIndex_sized h.sizedIndexes g id data
  exact ⟨_, r, hres, h.withIndexes hsized⟩

theorem readIndex (g : Grant Dirent) (id nth : ℤ) :
    ∃ m' r, readIndex m g id nth = .ok (m', r) ∧ m'.Dirents c := by
  obtain ⟨is, r, hres, hsized⟩ := readIndex_sized h.sizedIndexes g id nth
  exact ⟨_, r, hres, h.withIndexes hsized⟩

theorem findBest (g : ℤ → Grant Dirent) (posIndex : ℕ) (pos low high : ℤ) (best : Option Dirent) :
    ∃ m' r, Directory.findBest g posIndex pos m low high best = .ok (m', r) ∧ m'.Dirents c := by
  fun_induction Directory.findBest g posIndex pos m low high best with
  | case1 m low high best hle cur ih₁ ih₂ ih₃ =>
    obtain ⟨m', r, hres, hm'⟩ := h.readIndex (g cur) posIndex cur
    simp only [hres, bind, Except.bind]
    cases r with
    | error e => exact ih₁ m' hm'
    | ok dent =>
      simp only
      split
      · exact ih₂ m' dent hm'
      · exact ih₃ m' hm'
  | case2 m low high best hlt => exact ⟨m, best, rfl, h⟩

theorem findNext (g : DirGrant) (posIndex : ℕ) (pos : ℤ) (result : Option Dirent) :
    ∃ m' r, Directory.findNext m g posIndex pos result = .ok (m', r) ∧ m'.Dirents c := by
  obtain ⟨m₁, r, hsearch, h₁⟩ := h.searchIndex g.find posIndex ⟨1, default, BitVec.ofInt 32 pos⟩
  simp only [Directory.findNext, hsearch, bind, Except.bind]
  cases r with
  | ok loc =>
    obtain ⟨m₂, r, hread, h₂⟩ := h₁.readIndex (g.read loc) posIndex loc
    simp only [hread]
    cases r with
    | ok dent => exact ⟨m₂, _, rfl, h₂⟩
    | error e => cases e <;> exact ⟨m₂, _, rfl, h₂⟩
  | error e =>
    cases e with
    | enoent =>
      obtain ⟨m₂, best, hbest, h₂⟩ :=
        h₁.findBest g.read posIndex pos 1 m₁.list.numberOfElements none
      simp only [hbest]
      exact ⟨m₂, _, rfl, h₂⟩
    | einval | enomem => exact ⟨m₁, _, rfl, h₁⟩

end

end Mem.Dirents

def DirGrant.Memory (g : DirGrant) : Prop := g.dirent = true ∧ g.name = true ∧ g.insert.node = true

/-- What was last made of names: the inode that was given, and whether the name was unlinked or
renamed away since. -/
abbrev Report : Type := Name → Option (ℕ × Bool)

namespace Directory

def entry (d : Directory) (addr : ℕ) : ℕ × Bool := (d.ino addr, (d.flags addr).unlinked)

/-- The entries keep their inodes and flags, and as many are counted. -/
structure Same (d : Directory) (c : List (ℕ × Dirent)) (d' : Directory) : Prop where
  entries : ∀ x ∈ c, d'.ino x.2.addr = d.ino x.2.addr ∧ d'.flags x.2.addr = d.flags x.2.addr
  count : d'.numRmEnt = d.numRmEnt

theorem Same.refl (d : Directory) (c : List (ℕ × Dirent)) : d.Same c d :=
  ⟨fun _ _ => ⟨rfl, rfl⟩, rfl⟩

theorem Same.trans {d d' d'' : Directory} {c : List (ℕ × Dirent)} (h : d.Same c d')
    (h' : d'.Same c d'') : d.Same c d'' :=
  ⟨fun x hx => ⟨(h'.entries x hx).1.trans (h.entries x hx).1,
    (h'.entries x hx).2.trans (h.entries x hx).2⟩, h'.count.trans h.count⟩

/-- The entries of a directory and what is told of their names. -/
structure Good (d : Directory) (c : List (ℕ × Dirent)) (told : Report) : Prop where
  noList : d.dirEntries = none → c = []
  list : ∀ m, d.dirEntries = some m → m.Dirents c
  names : (c.map fun x => x.2.name).Nodup
  addrs : (c.map fun x => x.2.addr).Nodup
  used : ∀ x ∈ c, x.2.addr < d.nextDirent
  count : d.numRmEnt = c.countP fun x => (d.flags x.2.addr).unlinked
  told : ∀ name v, told name = some v ↔ ∃ x ∈ c, x.2.name = name ∧ d.entry x.2.addr = v

namespace Good

variable {d : Directory} {c : List (ℕ × Dirent)} {told : Report} {name : Name}

variable {x : ℕ × Dirent}

section

variable (h : d.Good c told)

include h

theorem told_entry (hx : x ∈ c) :
    told x.2.name = some (d.entry x.2.addr) := (h.told _ _).mpr ⟨x, hx, rfl, rfl⟩

theorem told_eq_none : told name = none ↔ ∀ x ∈ c, x.2.name ≠ name := by
  constructor
  · rintro hnone x hx rfl
    rw [h.told_entry hx] at hnone
    cases hnone
  · intro hall
    cases htold : told name with
    | none => rfl
    | some v =>
      obtain ⟨x, hx, hname, -⟩ := (h.told name v).mp htold
      exact absurd hname (hall x hx)

theorem update_none (hall : ∀ x ∈ c, x.2.name ≠ name) :
    update told name none = told := by
  rw [update_eq_self_iff]
  exact (h.told_eq_none.mpr hall).symm

theorem congr (d' : Directory) (hnone : d'.dirEntries = none → c = [])
    (hlist : ∀ m, d'.dirEntries = some m → m.Dirents c) (hused : d.nextDirent ≤ d'.nextDirent)
    (hsame : d.Same c d') : d'.Good c told := by
  have hentry : ∀ x ∈ c, d'.entry x.2.addr = d.entry x.2.addr := by
    intro x hx
    rw [entry, (hsame.entries x hx).1, (hsame.entries x hx).2, entry]
  refine ⟨hnone, hlist, h.names, h.addrs, fun x hx => Nat.lt_of_lt_of_le (h.used x hx) hused, ?_,
    ?_⟩
  · rw [hsame.count, h.count]
    congr 1
    apply countP_congr
    intro x hx
    rw [(hsame.entries x hx).2]
  · intro name v
    rw [h.told]
    constructor
    · rintro ⟨x, hx, hname, hv⟩
      exact ⟨x, hx, hname, (hentry x hx).trans hv⟩
    · rintro ⟨x, hx, hname, hv⟩
      exact ⟨x, hx, hname, (hentry x hx).symm.trans hv⟩

theorem withList {m : Mem Dirent} (hm : m.Dirents c) :
    Good { d with dirEntries := some m } c told :=
  h.congr _ nofun (fun _ heq => Option.some.inj heq ▸ hm) (le_refl _) ⟨fun _ _ => ⟨rfl, rfl⟩, rfl⟩

/-- **An entry is changed**: its name is told of anew, and the entry is counted as it is marked. -/
theorem change (d' : Directory) (hx : x ∈ c) (hlist : d'.dirEntries = d.dirEntries)
    (hnext : d'.nextDirent = d.nextDirent)
    (hsame : ∀ addr, addr ≠ x.2.addr → d'.ino addr = d.ino addr ∧ d'.flags addr = d.flags addr)
    (hcount : d'.numRmEnt + (d.flags x.2.addr).unlinked.toNat =
      d.numRmEnt + (d'.flags x.2.addr).unlinked.toNat) :
    d'.Good c (update told x.2.name (some (d'.entry x.2.addr))) := by
  have hother : ∀ y ∈ c, y ≠ x → y.2.addr ≠ x.2.addr :=
    fun y hy hne heq => hne (inj_on_of_nodup_map h.addrs hy hx heq)
  refine ⟨by rw [hlist]; exact h.noList, by rw [hlist]; exact h.list, h.names, h.addrs,
    by rw [hnext]; exact h.used, ?_, ?_⟩
  · obtain ⟨a, b, hc⟩ := append_of_mem hx
    have hnodup : c.Nodup := h.addrs.of_map
    have hpart : ∀ l : List (ℕ × Dirent), (∀ y ∈ l, y ∈ c ∧ y ≠ x) →
        l.countP (fun y => (d'.flags y.2.addr).unlinked) =
          l.countP fun y => (d.flags y.2.addr).unlinked := by
      intro l hl
      apply countP_congr
      intro y hy
      rw [(hsame _ (hother y (hl y hy).1 (hl y hy).2)).2]
    rw [hc, nodup_middle, nodup_cons, mem_append, not_or] at hnodup
    have ha := hpart a fun y hy => ⟨hc ▸ mem_append_left _ hy, fun heq => hnodup.1.1 (heq ▸ hy)⟩
    have hb := hpart b fun y hy =>
      ⟨hc ▸ mem_append_right _ (mem_cons_of_mem _ hy), fun heq => hnodup.1.2 (heq ▸ hy)⟩
    have hold := h.count
    rw [hc, countP_append, countP_cons] at hold ⊢
    rw [ha, hb]
    cases h1 : (d.flags x.2.addr).unlinked <;> cases h2 : (d'.flags x.2.addr).unlinked <;>
      simp only [h1, h2, Bool.toNat_false, Bool.toNat_true, Bool.false_eq_true, if_false,
        if_true] at hcount hold ⊢ <;> omega
  · intro name v
    rcases eq_or_ne name x.2.name with rfl | hne
    · rw [update_self]
      constructor
      · intro heq
        exact ⟨x, hx, rfl, Option.some.inj heq⟩
      · rintro ⟨y, hy, hname, rfl⟩
        rw [inj_on_of_nodup_map h.names hy hx hname]
    · rw [update_of_ne hne, h.told]
      have hentry : ∀ y ∈ c, y.2.name = name → d'.entry y.2.addr = d.entry y.2.addr := by
        intro y hy hname
        obtain ⟨hino, hflags⟩ := hsame y.2.addr (hother y hy (by rintro rfl; exact hne hname.symm))
        rw [entry, hino, hflags, entry]
      constructor
      · rintro ⟨y, hy, hname, hv⟩
        exact ⟨y, hy, hname, (hentry y hy hname).trans hv⟩
      · rintro ⟨y, hy, hname, hv⟩
        exact ⟨y, hy, hname, (hentry y hy hname).symm.trans hv⟩

/-- **An entry is new**. -/
theorem add (d' : Directory) {p : ℕ} {e : Dirent} {m : Mem Dirent} (hm : m.Dirents ((p, e) :: c))
    (hname : ∀ x ∈ c, x.2.name ≠ e.name) (haddr : e.addr = d.nextDirent)
    (hlist : d'.dirEntries = some m) (hnext : d'.nextDirent = d.nextDirent + 1) {entIno : ℕ}
    {flags : Flags} (hino : d'.ino = update d.ino e.addr entIno)
    (hflags : d'.flags = update d.flags e.addr flags)
    (hcount : d'.numRmEnt = if flags.unlinked then d.numRmEnt + 1 else d.numRmEnt) :
    d'.Good ((p, e) :: c) (update told e.name (some (entIno, flags.unlinked))) := by
  have hentry : d'.entry e.addr = (entIno, flags.unlinked) := by
    rw [entry, hino, hflags, update_self, update_self]
  have hsame : ∀ addr, addr ≠ e.addr → d'.ino addr = d.ino addr ∧ d'.flags addr = d.flags addr := by
    intro addr hne
    rw [hino, hflags]
    exact ⟨update_of_ne hne .., update_of_ne hne ..⟩
  have hother : ∀ y ∈ c, y.2.addr ≠ e.addr := by
    intro y hy
    rw [haddr]
    exact Nat.ne_of_lt (h.used y hy)
  refine ⟨by rw [hlist]; nofun, ?_, ?_, ?_, ?_, ?_, ?_⟩
  · intro m' hm'
    obtain rfl := Option.some.inj (hlist.symm.trans hm')
    exact hm
  · rw [map_cons, nodup_cons]
    refine ⟨?_, h.names⟩
    intro hin
    obtain ⟨y, hy, heq⟩ := mem_map.mp hin
    exact hname y hy heq
  · rw [map_cons, nodup_cons]
    refine ⟨?_, h.addrs⟩
    intro hin
    obtain ⟨y, hy, heq⟩ := mem_map.mp hin
    exact hother y hy heq
  · intro y hy
    rw [hnext]
    rcases mem_cons.mp hy with rfl | hy
    · exact Nat.lt_succ_of_le (Nat.le_of_eq haddr)
    · exact Nat.lt_succ_of_lt (h.used y hy)
  · have hsum : c.countP (fun y => (d'.flags y.2.addr).unlinked) =
        c.countP fun y => (d.flags y.2.addr).unlinked := by
      apply countP_congr
      intro y hy
      rw [(hsame _ (hother y hy)).2]
    rw [countP_cons, hsum, hcount, h.count, hflags, update_self]
    cases flags.unlinked <;> rfl
  · intro name v
    rcases eq_or_ne name e.name with rfl | hne
    · rw [update_self]
      constructor
      · intro heq
        exact ⟨(p, e), mem_cons_self .., rfl, hentry.trans (Option.some.inj heq)⟩
      · rintro ⟨y, hy, heq, rfl⟩
        rcases mem_cons.mp hy with rfl | hy
        · rw [hentry]
        · exact absurd heq (hname y hy)
    · rw [update_of_ne hne, h.told]
      have hold : ∀ y ∈ c, d'.entry y.2.addr = d.entry y.2.addr := by
        intro y hy
        obtain ⟨hino, hflags⟩ := hsame _ (hother y hy)
        rw [entry, hino, hflags, entry]
      constructor
      · rintro ⟨y, hy, heq, hv⟩
        exact ⟨y, mem_cons_of_mem _ hy, heq, (hold y hy).trans hv⟩
      · rintro ⟨y, hy, heq, hv⟩
        rcases mem_cons.mp hy with rfl | hy
        · exact absurd heq.symm hne
        · exact ⟨y, hy, heq, (hold y hy).symm.trans hv⟩

end

/-- **An entry is gone**. -/
theorem forget {a b : List (ℕ × Dirent)} (h : d.Good (a ++ x :: b) told) (d' : Directory)
    {m : Mem Dirent} (hm : m.Dirents (a ++ b)) (hlist : d'.dirEntries = some m)
    (hnext : d'.nextDirent = d.nextDirent) (hino : d'.ino = d.ino) (hflags : d'.flags = d.flags)
    (hcount : d'.numRmEnt + (d.flags x.2.addr).unlinked.toNat = d.numRmEnt) :
    d'.Good (a ++ b) (update told x.2.name none) := by
  have hmem : ∀ y, y ∈ a ++ x :: b ↔ y = x ∨ y ∈ a ++ b := by
    intro y
    rw [perm_middle.mem_iff, mem_cons]
  have hnames := h.names
  have haddrs := h.addrs
  rw [map_append, map_cons, nodup_middle, ← map_append, nodup_cons]
    at hnames haddrs
  have hentry : d'.entry = d.entry := by
    funext addr
    rw [entry, hino, hflags, entry]
  refine ⟨by rw [hlist]; nofun, ?_, hnames.2, haddrs.2, ?_, ?_, ?_⟩
  · intro m' hm'
    obtain rfl := Option.some.inj (hlist.symm.trans hm')
    exact hm
  · intro y hy
    rw [hnext]
    exact h.used y ((hmem y).mpr (.inr hy))
  · have hold := h.count
    rw [countP_append, countP_cons] at hold
    rw [hflags, countP_append]
    cases hu : (d.flags x.2.addr).unlinked <;>
      simp only [hu, Bool.toNat_false, Bool.toNat_true, Bool.false_eq_true, if_false, if_true]
        at hcount hold <;> omega
  · intro name v
    rw [hentry]
    rcases eq_or_ne name x.2.name with rfl | hne
    · rw [update_self]
      constructor
      · nofun
      · rintro ⟨y, hy, heq, -⟩
        exact absurd (mem_map.mpr ⟨y, hy, heq⟩) hnames.1
    · rw [update_of_ne hne, h.told]
      constructor
      · rintro ⟨y, hy, heq, hv⟩
        rcases (hmem y).mp hy with rfl | hy
        · exact absurd heq.symm hne
        · exact ⟨y, hy, heq, hv⟩
      · rintro ⟨y, hy, heq, hv⟩
        exact ⟨y, (hmem y).mpr (.inr hy), heq, hv⟩

/-! ## Operations -/

theorem uncounted (n : ℤ) (unlinked : Bool) :
    (if unlinked then n - 1 else n) + unlinked.toNat = n := by
  cases unlinked <;> simp

variable {g : DirGrant}

section

variable (h : d.Good c told)

include h

theorem inoFindDirent (g : Grant Dirent) (name : Name) :
    ∃ l r, d.inoFindDirent g name = .ok ({ d with dirEntries := l }, r) ∧
      Good { d with dirEntries := l } c told ∧
      (∀ e, r = some e → ∃ x ∈ c, x.2 = e ∧ x.2.name = name) ∧
      (r = none → ∀ x ∈ c, x.2.name ≠ name) := by
  rw [Directory.inoFindDirent]
  split
  · rename_i hnone
    refine ⟨d.dirEntries, none, rfl, h, nofun, ?_⟩
    rintro - x hx
    rw [h.noList hnone] at hx
    cases hx
  · rename_i m hm
    obtain ⟨m', r, hres, hm', -, hfound, hmissed⟩ := (h.list m hm).find g name
    refine ⟨some m', r, ?_, h.withList hm', ?_, ?_⟩
    · rw [hres]
      rfl
    · intro e he
      obtain ⟨hin, hname⟩ := hfound e he
      obtain ⟨x, hx, rfl⟩ := mem_map.mp hin
      exact ⟨x, hx, rfl, hname⟩
    · intro hr x hx
      exact hmissed hr x.2 (mem_map_of_mem hx)

theorem removeDirent (g : Grant Dirent) (name : Name) :
    (∃ d' a b x, d.removeDirent g name = .ok (d', .ok ()) ∧ c = a ++ x :: b ∧ x.2.name = name ∧
      d'.dirEntries ≠ none ∧ d'.Good (a ++ b) (update told name none)) ∨
    (∀ x ∈ c, x.2.name ≠ name) ∧ ∃ r, d.removeDirent g name = .ok (d, r) := by
  rw [Directory.removeDirent]
  split
  · rename_i hnone
    refine .inr ⟨?_, _, rfl⟩
    rw [h.noList hnone]
    exact fun x hx => nomatch hx
  · rename_i m hm
    rcases (h.list m hm).remove g name with ⟨hres, hall⟩ | ⟨m', a, b, q, e, hres, rfl, rfl, hm'⟩
    · refine .inr ⟨fun x hx => hall x.2 (mem_map_of_mem hx), .error .enoent, ?_⟩
      rw [hres]
      cases d
      obtain rfl := hm
      rfl
    · have hgone := h.forget { d with
          dirEntries := some m'
          numRmEnt := if (d.flags e.addr).unlinked then d.numRmEnt - 1 else d.numRmEnt }
        hm' rfl rfl rfl rfl (uncounted _ _)
      refine .inl ⟨_, a, b, (q, e), ?_, rfl, rfl, Option.some_ne_none _, hgone⟩
      rw [hres]
      rfl

theorem newDirent (hall : ∀ x ∈ c, x.2.name ≠ name) (hfree : ∀ x ∈ c, x.1 ≠ g.insert.addr)
    (hlist : d.dirEntries ≠ none) (hmem : g.Memory) (entIno : ℕ) (flags : Flags) :
    ∃ d' c', d.newDirent g name entIno flags = .ok (d', .ok ()) ∧
      d'.Good c' (update told name (some (entIno, flags.unlinked))) := by
  obtain ⟨m, hm⟩ := Option.ne_none_iff_exists'.mp hlist
  obtain ⟨m', hres, hm'⟩ := (h.list m hm).insert hmem.2.2 hfree ⟨d.nextDirent, name, d.lastDirPos⟩
  have hnew := h.add { d with
      dirEntries := some m'
      ino := update d.ino d.nextDirent entIno
      flags := update d.flags d.nextDirent flags
      lastDirPos := d.lastDirPos + 1
      nextDirent := d.nextDirent + 1
      numRmEnt := if flags.unlinked then d.numRmEnt + 1 else d.numRmEnt } hm' hall rfl rfl rfl
    rfl rfl rfl
  refine ⟨_, _, ?_, hnew⟩
  rw [Directory.newDirent, hm]
  simp only [hmem.1, hmem.2.1, and_self, if_true, hres]
  rfl

theorem newDirent_lost (hmem : ¬ (d.dirEntries ≠ none ∧ g.Memory)) (name : Name) (entIno : ℕ)
    (flags : Flags) :
    ∃ d', d.newDirent g name entIno flags = .ok (d', .error .enomem) ∧ d'.Good c told ∧
      d.Same c d' := by
  rw [Directory.newDirent]
  split
  · exact ⟨d, rfl, h, .refl d c⟩
  · rename_i m hm
    split
    · rename_i hg
      have hnode : g.insert.node = false := by
        rw [Bool.eq_false_iff]
        exact fun hnode => hmem ⟨by rw [hm]; exact Option.some_ne_none m, hg.1, hg.2, hnode⟩
      have hres : ∀ e, insertIntoListSorted m g.insert e = .ok (m, none) := by
        intro e
        rw [insertIntoListSorted, hnode]
        rfl
      have hsame : d.Same c { d with
          dirEntries := some m
          ino := update d.ino d.nextDirent entIno
          flags := update d.flags d.nextDirent flags
          lastDirPos := d.lastDirPos + 1
          nextDirent := d.nextDirent + 1 } := by
        -- the new entry is at an address of its own
        refine ⟨fun x hx => ?_, rfl⟩
        have hne := Nat.ne_of_lt (h.used x hx)
        exact ⟨update_of_ne hne .., update_of_ne hne ..⟩
      refine ⟨_, ?_, h.congr _ ?_ ?_ (Nat.le_succ _) hsame, hsame⟩
      · simp only [hres]
        rfl
      · rintro ⟨⟩
      · exact fun m' hm' => Option.some.inj hm' ▸ h.list m hm
    · exact ⟨d, rfl, h, .refl d c⟩

theorem withEntries (g : DirGrant) :
    ∃ d', d.withEntries g = .ok d' ∧ d'.Good c told ∧ d.Same c d' := by
  rw [Directory.withEntries]
  split
  · exact ⟨d, rfl, h, .refl d c⟩
  · rename_i hnone
    obtain rfl := h.noList hnone
    obtain ⟨r, hres, hlist⟩ := Mem.Dirents.create g
    rw [hres]
    cases r with
    | none => exact ⟨d, rfl, h, .refl d []⟩
    | some r =>
      refine ⟨_, rfl, h.congr _ nofun ?_ (le_refl _) ⟨nofun, rfl⟩, ⟨nofun, rfl⟩⟩
      intro m hm
      cases hm
      exact hlist _ _ rfl

/-- **An entry is added where it fits**: it is new, or nothing is changed. -/
theorem inoAddDirent (hfree : ∀ x ∈ c, x.1 = g.insert.addr → x.2.name = name)
    (hfits : ∀ i, told name = some (i, true) → g.Memory) (entIno : ℕ) (flags : Flags) :
    ∃ d', (d.inoAddDirent g name entIno flags = .ok (d', .ok ()) ∧
        ∃ c', d'.Good c' (update told name (some (entIno, flags.unlinked)))) ∨
      ((∃ e, d.inoAddDirent g name entIno flags = .ok (d', .error e)) ∧ d'.Good c told ∧
        d.Same c d') := by
  obtain ⟨d₁, hlist, h₁, hsame₁⟩ := h.withEntries g
  obtain ⟨l, r, hfind, h₂, hfound, hmissed⟩ := h₁.inoFindDirent g.check name
  simp only [Directory.inoAddDirent, hlist, hfind, bind, Except.bind]
  cases r with
  | none =>
    have hall := hmissed rfl
    by_cases hmem : l ≠ none ∧ g.Memory
    · obtain ⟨d', c', hnew, h'⟩ := h₂.newDirent hall (fun x hx heq => hall x hx (hfree x hx heq))
        hmem.1 hmem.2 entIno flags
      exact ⟨d', .inl ⟨hnew, c', h'⟩⟩
    · obtain ⟨d', hlost, h', hsame⟩ := h₂.newDirent_lost hmem name entIno flags
      exact ⟨d', .inr ⟨⟨_, hlost⟩, h', hsame₁.trans ⟨hsame.entries, hsame.count⟩⟩⟩
  | some e =>
    obtain ⟨x, hx, rfl, hname⟩ := hfound e rfl
    have hentry := hname ▸ h₂.told_entry hx
    cases hu : (d₁.flags x.2.addr).unlinked with
    | false =>
      simp only [hu, Bool.false_eq_true, if_false]
      exact ⟨_, .inr ⟨⟨_, rfl⟩, h₂, ⟨hsame₁.entries, hsame₁.count⟩⟩⟩
    | true =>
      simp only [hu, if_true]
      have hmem := hfits (d₁.ino x.2.addr) (by rw [hentry, entry, hu])
      rcases h₂.removeDirent g.remove name with
        ⟨d₃, a, b, y, hrem, rfl, hyname, hsome, h₃⟩ | ⟨hall, -⟩
      · -- the other entries have other names
        have hall : ∀ z ∈ a ++ b, z.2.name ≠ name := by
          rw [← h₃.told_eq_none, update_self]
        obtain ⟨d', c', hnew, h'⟩ := h₃.newDirent hall
          (fun z hz heq => hall z hz (hfree z (by
            rw [perm_middle.mem_iff]
            exact mem_cons_of_mem _ hz) heq))
          hsome hmem entIno { flags with relinked := true }
        rw [update_idem] at h'
        exact ⟨d', .inl ⟨by rw [hrem]; exact hnew, c', h'⟩⟩
      · exact absurd hname (hall x hx)

/-- **The marked entry is lost** when there is no memory for the new one. -/
theorem inoAddDirent_lost {i : ℕ} (htold : told name = some (i, true)) (hmem : ¬ g.Memory)
    (entIno : ℕ) (flags : Flags) :
    ∃ d' c', d.inoAddDirent g name entIno flags = .ok (d', .error .enomem) ∧
      d'.Good c' (update told name none) := by
  obtain ⟨d₁, hlist, h₁, -⟩ := h.withEntries g
  obtain ⟨l, r, hfind, h₂, hfound, hmissed⟩ := h₁.inoFindDirent g.check name
  simp only [Directory.inoAddDirent, hlist, hfind, bind, Except.bind]
  obtain ⟨x, hx, hname, hentry⟩ := (h.told name _).mp htold
  cases r with
  | none => exact absurd hname (hmissed rfl x hx)
  | some e =>
    obtain ⟨y, hy, rfl, hyname⟩ := hfound e rfl
    have hu : (d₁.flags y.2.addr).unlinked = true := by
      have heq := (h₂.told_entry hy).symm.trans (hyname ▸ htold)
      exact (Prod.mk.inj (Option.some.inj heq)).2
    simp only [hu, if_true]
    rcases h₂.removeDirent g.remove name with ⟨d₃, a, b, z, hrem, rfl, -, -, h₃⟩ | ⟨hall, -⟩
    · obtain ⟨d', hlost, h', -⟩ := h₃.newDirent_lost (fun hm => hmem hm.2) name entIno
        { flags with relinked := true }
      exact ⟨d', a ++ b, by rw [hrem]; exact hlost, h'⟩
    · exact absurd hname (hall x hx)

theorem markUnlinked (hx : x ∈ c) (hu : (d.flags x.2.addr).unlinked = false) :
    (d.markUnlinked x.2.addr).Good c
      (update told x.2.name (some (d.ino x.2.addr, true))) := by
  have h' := h.change (d.markUnlinked x.2.addr) hx rfl rfl
    (fun addr hne => ⟨rfl, update_of_ne hne ..⟩) (by
      show d.numRmEnt + 1 + ((d.flags x.2.addr).unlinked.toNat : ℤ) = d.numRmEnt +
        ((update d.flags x.2.addr _ x.2.addr).unlinked.toNat : ℤ)
      rw [update_self, hu, Bool.toNat_false]
      exact add_zero _)
  have hentry : (d.markUnlinked x.2.addr).entry x.2.addr = (d.ino x.2.addr, true) := by
    show (d.ino x.2.addr, (update d.flags x.2.addr _ x.2.addr).unlinked) = _
    rw [update_self]
  rw [hentry] at h'
  exact h'

theorem reinstate (hx : x ∈ c) (hu : (d.flags x.2.addr).unlinked = true) :
    (d.reinstate x.2.addr).Good c
      (update told x.2.name (some (d.ino x.2.addr, false))) := by
  have h' := h.change (d.reinstate x.2.addr) hx rfl rfl
    (fun addr hne => ⟨rfl, update_of_ne hne ..⟩) (by
      show d.numRmEnt - 1 + ((d.flags x.2.addr).unlinked.toNat : ℤ) = d.numRmEnt +
        ((update d.flags x.2.addr _ x.2.addr).unlinked.toNat : ℤ)
      rw [update_self, hu, Bool.toNat_false]
      exact (sub_add_cancel _ _).trans (add_zero _).symm)
  have hentry : (d.reinstate x.2.addr).entry x.2.addr = (d.ino x.2.addr, false) := by
    show (d.ino x.2.addr, (update d.flags x.2.addr _ x.2.addr).unlinked) = _
    rw [update_self]
  rw [hentry] at h'
  exact h'

theorem relink (dInfo : ℕ) (hx : x ∈ c) :
    (d.relink dInfo x.2.addr).Good c
      (update told x.2.name (some (d.ino dInfo, false))) := by
  have hflags : ∀ addr, (d.relink dInfo x.2.addr).flags addr =
      if (d.flags x.2.addr).unlinked ∧ addr = x.2.addr then ⟨false, true⟩ else d.flags addr := by
    intro addr
    rw [Directory.relink]
    cases hu : (d.flags x.2.addr).unlinked
    · simp only [Bool.false_eq_true, false_and, if_false]
    · simp only [if_true, true_and, update_apply]
  have hself : ((d.relink dInfo x.2.addr).flags x.2.addr).unlinked = false := by
    rw [hflags]
    cases hu : (d.flags x.2.addr).unlinked
    · simp only [Bool.false_eq_true, false_and, if_false, hu]
    · simp only [and_self, if_true]
  have h' := h.change (d.relink dInfo x.2.addr) hx rfl rfl (by
    intro addr hne
    refine ⟨update_of_ne hne .., ?_⟩
    rw [hflags, if_neg fun h => hne h.2]) (by
    rw [hself]
    exact (uncounted _ _).trans (add_zero _).symm)
  have hentry : (d.relink dInfo x.2.addr).entry x.2.addr = (d.ino dInfo, false) := by
    rw [entry, hself]
    exact congrArg (·, false) (update_self ..)
  rw [hentry] at h'
  exact h'

end

end Good

end Directory

end Ovlfs
