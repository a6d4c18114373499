import ReadingComment.Ovlfs.DirectoryErrors
import ReadingComment.Ovlfs.PositionIndex

/-!
# Reading a directory while others change it

A reader of a directory calls `ovlfs_stg1_get_dirent` with the position that the call before has
left, and in between others work on the directory. It reads the directory as a reader of any
collection by position does, as long as the positions of the entries are in their order: new entries
are added only while `last_dir_pos` is no more than 2³¹ ahead of the other entries, and before it
wraps around.
-/

namespace Ovlfs

open List

namespace Directory

def entries (d : Directory) : List Dirent :=
  match d.dirEntries with
  | none => []
  | some m =>
    match makeIndex m.heap m.list.numberOfElements m.list.firstElement with
    | .ok els => els
    | .error _ => []

/-- There is an entry of the name, and it is not marked as unlinked. -/
def Links (d : Directory) (name : Name) : Prop :=
  ∃ e ∈ d.entries, e.name = name ∧ (d.flags e.addr).unlinked = false

def Makes (d : Directory) : DirCall → Prop
  | .addDirent name _ => ¬ d.Links name
  | .inoAddDirent name _ _ => ¬ d.Links name
  | .rename oname nname => d.Links oname ∧ ∀ e ∈ d.entries, e.name ≠ nname
  | _ => False

/-- There is room behind the other entries for one with the name: the position of the next entry
does not wrap around, and the others are less than 2³¹ positions before it. -/
def Room (d : Directory) (g : DirGrant) (name : Name) : Prop :=
  g.dirent = true → g.name = true → d.lastDirPos.toNat + 1 < 2 ^ 32 ∧
    (g.insert.node = true →
      ∀ e ∈ d.entries, e.name ≠ name → d.lastDirPos.toNat < e.pos.toNat + 2 ^ 31)

def CanRead (d : Directory) (g : DirGrant) : Prop :=
  ∀ m, d.dirEntries = some m → m.CanIndex g.find d.posIndex

/-- The entries of a directory, and their places in the index by position. -/
structure Ordered (d : Directory) (c : List (ℕ × Dirent)) : Prop where
  noList : d.dirEntries = none → c = []
  list : ∀ m, d.dirEntries = some m → m.Dirents c ∧ m.Placed (c.map Prod.snd) d.posIndex
  names : (c.map fun x => x.2.name).Nodup
  positions : ((c.map Prod.snd).map Dirent.position).Nodup
  behind : ∀ x ∈ c, x.2.pos.toNat < d.lastDirPos.toNat
  window : Window (c.map Prod.snd)

namespace Ordered

variable {d : Directory} {c : List (ℕ × Dirent)} {g : DirGrant} {name : Name}

theorem init : Directory.init.Ordered [] :=
  ⟨fun _ => rfl, nofun, nodup_nil, nodup_nil, nofun, nofun⟩

theorem entries_eq (h : d.Ordered c) : d.entries = c.map Prod.snd := by
  rw [entries]
  split
  case h_1 hnone => rw [h.noList hnone, map_nil]
  case h_2 m hm =>
    obtain ⟨hd, -⟩ := h.list m hm
    rw [hd.count, makeIndex_eq hd.linked]

theorem links_iff (h : d.Ordered c) :
    d.Links name ↔ ∃ x ∈ c, x.2.name = name ∧ (d.flags x.2.addr).unlinked = false := by
  rw [Links, h.entries_eq]
  constructor
  · rintro ⟨e, he, hname⟩
    obtain ⟨x, hx, rfl⟩ := mem_map.mp he
    exact ⟨x, hx, hname⟩
  · rintro ⟨x, hx, hname⟩
    exact ⟨x.2, mem_map_of_mem hx, hname⟩

theorem free (h : d.Ordered c) {p : ℕ} (hfree : ∀ m, d.dirEntries = some m → ∀ n,
    m.heap.node p = some n → n.element.name = name) : ∀ x ∈ c, x.1 = p → x.2.name = name := by
  rintro x hx rfl
  cases hlist : d.dirEntries with
  | none =>
    rw [h.noList hlist] at hx
    cases hx
  | some m =>
    obtain ⟨next, hnode⟩ := (h.list m hlist).1.linked.node_eq hx
    exact hfree m hlist _ hnode

theorem congr (h : d.Ordered c) (d' : Directory) (hlist : d'.dirEntries = d.dirEntries)
    (hid : d'.posIndex = d.posIndex) (hlast : d'.lastDirPos = d.lastDirPos) : d'.Ordered c := by
  refine ⟨?_, ?_, h.names, h.positions, ?_, h.window⟩
  · rw [hlist]
    exact h.noList
  · rw [hlist, hid]
    exact h.list
  · rw [hlast]
    exact h.behind

variable {m : Mem Dirent}

theorem withList (h : d.Ordered c) (hm : m.Dirents c) (hp : m.Placed (c.map Prod.snd) d.posIndex) :
    Ordered { d with dirEntries := some m } c := by
  refine ⟨nofun, fun m' heq => ?_, h.names, h.positions, h.behind, h.window⟩
  cases heq
  exact ⟨hm, hp⟩

/-! ## Operations -/

section

variable (h : d.Ordered c)

include h

theorem withEntries (g : DirGrant) :
    ∃ d', d.withEntries g = .ok d' ∧ d'.Ordered c ∧ d'.flags = d.flags ∧
      d'.lastDirPos = d.lastDirPos := by
  rw [Directory.withEntries]
  split
  case h_1 => exact ⟨d, rfl, h, rfl, rfl⟩
  case h_2 hnone =>
    obtain rfl := h.noList hnone
    obtain ⟨r, hres, hr⟩ := Mem.Dirents.placed_create g
    rw [hres]
    cases r with
    | none => exact ⟨d, rfl, h, rfl, rfl⟩
    | some r =>
      obtain ⟨hm, hp⟩ := hr _ _ rfl
      refine ⟨_, rfl, ⟨by rintro ⟨⟩, fun m heq => ?_, h.names, h.positions, h.behind, h.window⟩,
        rfl, rfl⟩
      cases heq
      exact ⟨hm, hp⟩

theorem inoFindDirent (g : Grant Dirent) (name : Name) :
    ∃ l r, d.inoFindDirent g name = .ok ({ d with dirEntries := l }, r) ∧
      Ordered { d with dirEntries := l } c ∧
      (∀ e, r = some e → ∃ x ∈ c, x.2 = e ∧ x.2.name = name) ∧
      (r = none → ∀ x ∈ c, x.2.name ≠ name) := by
  rw [Directory.inoFindDirent]
  split
  case h_1 hnone =>
    refine ⟨d.dirEntries, none, rfl, h, by rintro _ ⟨⟩, ?_⟩
    rintro - x hx
    rw [h.noList hnone] at hx
    cases hx
  case h_2 m hm =>
    obtain ⟨hd, hp⟩ := h.list m hm
    obtain ⟨m', r, hres, hm', ⟨-, his⟩, hfound, hmissed⟩ := hd.find_indexes g name
    refine ⟨some m', r, ?_, h.withList hm' (Mem.Dirents.placed_congr hp his), ?_, ?_⟩
    · rw [hres]
      rfl
    · intro e he
      obtain ⟨hin, hname⟩ := hfound e he
      obtain ⟨x, hx, rfl⟩ := mem_map.mp hin
      exact ⟨x, hx, rfl, hname⟩
    · intro hr x hx
      exact hmissed hr x.2 (mem_map_of_mem hx)

theorem sublist {c' : List (ℕ × Dirent)} (hsub : c'.Sublist c) (d' : Directory) (hm : m.Dirents c')
    (hp : m.Placed (c'.map Prod.snd) d.posIndex) (hlist : d'.dirEntries = some m)
    (hid : d'.posIndex = d.posIndex) (hlast : d'.lastDirPos = d.lastDirPos) : d'.Ordered c' := by
  refine ⟨by rw [hlist]; nofun, ?_, h.names.sublist (hsub.map _),
    h.positions.sublist ((hsub.map _).map _), ?_,
    h.window.of_subset fun e he => (hsub.map _).subset he⟩
  · rw [hlist, hid]
    rintro m' heq
    cases heq
    exact ⟨hm, hp⟩
  · rw [hlast]
    exact fun x hx => h.behind x (hsub.subset hx)

theorem removeDirent (g : Grant Dirent) (name : Name) :
    (∃ d' a b x, d.removeDirent g name = .ok (d', .ok ()) ∧ c = a ++ x :: b ∧ x.2.name = name ∧
      d'.Ordered (a ++ b) ∧ d'.lastDirPos = d.lastDirPos) ∨
    (∀ x ∈ c, x.2.name ≠ name) ∧ ∃ r, d.removeDirent g name = .ok (d, r) := by
  rw [Directory.removeDirent]
  split
  case h_1 hnone =>
    refine .inr ⟨?_, _, rfl⟩
    rw [h.noList hnone]
    exact fun x hx => absurd hx not_mem_nil
  case h_2 m hm =>
    obtain ⟨hd, hp⟩ := h.list m hm
    rcases hd.placed_remove hp g name with ⟨hres, hall⟩ | ⟨m', a, b, q, e, hres, rfl, rfl, hm', hp'⟩
    · refine .inr ⟨fun x hx => hall x.2 (mem_map_of_mem hx), .error .enoent, ?_⟩
      rw [hres]
      cases d
      obtain rfl := hm
      rfl
    · have hsub : (a ++ b).Sublist (a ++ (q, e) :: b) :=
        (List.Sublist.refl a).append (sublist_cons_self (q, e) b)
      refine .inl ⟨_, a, b, (q, e), ?_, rfl, rfl, h.sublist hsub { d with
        dirEntries := some m'
        numRmEnt := if (d.flags e.addr).unlinked then d.numRmEnt - 1 else d.numRmEnt }
        hm' hp' rfl rfl rfl, rfl⟩
      rw [hres]
      rfl

theorem add {p : ℕ} {e : Dirent} (hname : ∀ x ∈ c, x.2.name ≠ e.name) (hpos : e.pos = d.lastDirPos)
    (hwindow : Window (e :: c.map Prod.snd)) (d' : Directory) (hm : m.Dirents ((p, e) :: c))
    (hp : m.Placed (e :: c.map Prod.snd) d.posIndex) (hlist : d'.dirEntries = some m)
    (hid : d'.posIndex = d.posIndex) (hlast : d'.lastDirPos.toNat = d.lastDirPos.toNat + 1) :
    d'.Ordered ((p, e) :: c) := by
  refine ⟨by rw [hlist]; nofun, ?_, ?_, ?_, ?_, hwindow⟩
  · rw [hlist, hid]
    rintro m' heq
    cases heq
    exact ⟨hm, hp⟩
  · rw [map_cons, nodup_cons]
    refine ⟨fun hin => ?_, h.names⟩
    obtain ⟨x, hx, heq⟩ := mem_map.mp hin
    exact hname x hx heq
  · rw [map_cons, map_cons, nodup_cons]
    refine ⟨fun hin => ?_, h.positions⟩
    obtain ⟨f, hf, heq⟩ := mem_map.mp hin
    obtain ⟨x, hx, rfl⟩ := mem_map.mp hf
    have hlt := h.behind x hx
    rw [Dirent.position, Dirent.position, hpos] at heq
    omega
  · intro x hx
    rw [hlast]
    rcases mem_cons.mp hx with rfl | hx
    · rw [hpos]
      exact Nat.lt_succ_self _
    · exact Nat.lt_succ_of_lt (h.behind x hx)

theorem window_add {e : Dirent} (hpos : e.pos = d.lastDirPos)
    (hnear : ∀ x ∈ c, d.lastDirPos.toNat < x.2.pos.toNat + 2 ^ 31) :
    Window (e :: c.map Prod.snd) := by
  have hall : ∀ f ∈ c.map Prod.snd, f.pos.toNat < d.lastDirPos.toNat ∧
      d.lastDirPos.toNat < f.pos.toNat + 2 ^ 31 := by
    intro f hf
    obtain ⟨x, hx, rfl⟩ := mem_map.mp hf
    exact ⟨h.behind x hx, hnear x hx⟩
  intro f hf f' hf'
  rcases mem_cons.mp hf with rfl | hin
  · rcases mem_cons.mp hf' with rfl | hf'
    · omega
    · rw [hpos]
      exact (hall f' hf').2
  · rcases mem_cons.mp hf' with rfl | hf'
    · rw [hpos]
      exact (hall f hin).1.trans_le (Nat.le_add_right _ _)
    · exact h.window f hin f' hf'

theorem newDirent (hall : ∀ x ∈ c, x.2.name ≠ name) (hfree : ∀ x ∈ c, x.1 ≠ g.insert.addr)
    (hroom : g.dirent = true → g.name = true →
      d.lastDirPos.toNat + 1 < 2 ^ 32 ∧ (g.insert.node = true →
        ∀ x ∈ c, d.lastDirPos.toNat < x.2.pos.toNat + 2 ^ 31)) (entIno : ℕ) (flags : Flags) :
    ∃ d' r c', d.newDirent g name entIno flags = .ok (d', r) ∧ d'.Ordered c' := by
  rw [Directory.newDirent]
  split
  case h_1 => exact ⟨d, _, c, rfl, h⟩
  case h_2 m hm =>
    obtain ⟨hd, hp⟩ := h.list m hm
    split
    case isFalse => exact ⟨d, _, c, rfl, h⟩
    case isTrue hg =>
      obtain ⟨hlast, hnear⟩ := hroom hg.1 hg.2
      have hnext : (d.lastDirPos + 1).toNat = d.lastDirPos.toNat + 1 := by
        rw [BitVec.toNat_add]
        exact Nat.mod_eq_of_lt hlast
      cases hnode : g.insert.node with
      | false =>
        -- the position is taken, and there is no entry
        have hres : ∀ e, insertIntoListSorted m g.insert e = .ok (m, none) := by
          intro e
          rw [insertIntoListSorted, hnode]
          rfl
        simp only [hres, bind, Except.bind]
        refine ⟨_, _, c, rfl, ⟨by rintro ⟨⟩, fun m' heq => ?_, h.names, h.positions, fun x hx => ?_,
          h.window⟩⟩
        · cases heq
          exact ⟨hd, hp⟩
        · show x.2.pos.toNat < (d.lastDirPos + 1).toNat
          rw [hnext]
          exact Nat.lt_succ_of_lt (h.behind x hx)
      | true =>
        have hwindow := h.window_add (e := ⟨d.nextDirent, name, d.lastDirPos⟩) rfl (hnear hnode)
        obtain ⟨m', hres, hm', hp'⟩ := hd.placed_insert hp hnode hfree hwindow
        simp only [hres, bind, Except.bind]
        exact ⟨_, _, _, rfl, h.add hall rfl hwindow _ hm' hp' rfl rfl hnext⟩

theorem inoAddDirent (hfree : ∀ x ∈ c, x.1 = g.insert.addr → x.2.name = name)
    (hroom : ¬ d.Links name → d.Room g name) (entIno : ℕ) (flags : Flags) :
    ∃ d' r c', d.inoAddDirent g name entIno flags = .ok (d', r) ∧ d'.Ordered c' := by
  rw [h.links_iff, Room, h.entries_eq] at hroom
  obtain ⟨d₁, hlist, h₁, hflags, hlast⟩ := h.withEntries g
  obtain ⟨l, r, hfind, h₂, hfound, hmissed⟩ := h₁.inoFindDirent g.check name
  rw [← hflags, ← hlast] at hroom
  simp only [Directory.inoAddDirent, hlist, hfind, bind, Except.bind]
  cases r with
  | none =>
    have hall := hmissed rfl
    refine h₂.newDirent hall (fun x hx heq => hall x hx (hfree x hx heq)) (fun hd hn => ?_) _ _
    obtain ⟨hlast, hnear⟩ := hroom (by rintro ⟨x, hx, hname, -⟩; exact hall x hx hname) hd hn
    exact ⟨hlast, fun hnode x hx => hnear hnode x.2 (mem_map_of_mem hx) (hall x hx)⟩
  | some e =>
    obtain ⟨x, hx, rfl, hname⟩ := hfound e rfl
    cases hu : (d₁.flags x.2.addr).unlinked with
    | false =>
      simp only [hu, Bool.false_eq_true, if_false]
      exact ⟨_, _, c, rfl, h₂⟩
    | true =>
      simp only [hu, if_true]
      rcases h₂.removeDirent g.remove name with
        ⟨d₃, a, b, y, hrem, rfl, hyname, h₃, hlast₃⟩ | ⟨hall, -⟩
      · have hunlinked : ¬ ∃ z ∈ a ++ y :: b, z.2.name = name ∧
            (d₁.flags z.2.addr).unlinked = false := by
          rintro ⟨z, hz, hzname, hzu⟩
          rw [inj_on_of_nodup_map h.names hz hx (hzname.trans hname.symm), hu] at hzu
          cases hzu
        have hmem : ∀ z ∈ a ++ b, z ∈ a ++ y :: b := by
          intro z hz
          rw [perm_middle.mem_iff]
          exact mem_cons_of_mem _ hz
        -- the other entries have other names
        have hall : ∀ z ∈ a ++ b, z.2.name ≠ name := by
          have hnodup := h.names
          rw [map_append, map_cons, nodup_middle, ← map_append,
            nodup_cons] at hnodup
          intro z hz heq
          exact hnodup.1 (mem_map.mpr ⟨z, hz, heq.trans hyname.symm⟩)
        simp only [hrem]
        refine h₃.newDirent hall (fun z hz heq => hall z hz (hfree z (hmem z hz) heq))
          (fun hd hn => ?_) _ _
        obtain ⟨hlast, hnear⟩ := hroom hunlinked hd hn
        rw [hlast₃]
        exact ⟨hlast, fun hnode z hz =>
          hnear hnode z.2 (mem_map_of_mem (hmem z hz)) (hall z hz)⟩
      · exact absurd hname (hall x hx)

theorem markUnlinked (addr : ℕ) : (d.markUnlinked addr).Ordered c :=
  h.congr _ rfl rfl rfl

theorem unlink (g : DirGrant) (name : Name) :
    ∃ d' r, d.unlink g name = .ok (d', r) ∧ d'.Ordered c := by
  rw [Directory.unlink, Directory.unlinkDirent]
  split
  case h_1 => exact ⟨d, _, rfl, h⟩
  case h_2 m hm =>
    obtain ⟨hd, hp⟩ := h.list m hm
    obtain ⟨m', r, hres, hm', ⟨-, his⟩, -, -⟩ := hd.find_indexes g.find name
    have h' := h.withList hm' (Mem.Dirents.placed_congr hp his)
    simp only [hres, bind, Except.bind]
    cases r with
    | none => exact ⟨_, _, rfl, h'⟩
    | some e =>
      simp only
      split
      · exact ⟨_, _, rfl, h'⟩
      · exact ⟨_, _, rfl, h'.markUnlinked e.addr⟩

theorem deleteDirent (g : DirGrant) (name : Name) :
    ∃ d' r c', d.deleteDirent g name = .ok (d', r) ∧ d'.Ordered c' ∧ c'.Sublist c := by
  rw [Directory.deleteDirent]
  rcases h.removeDirent g.remove name with ⟨d', a, b, x, hres, rfl, -, h', -⟩ | ⟨-, r, hres⟩
  · exact ⟨d', _, a ++ b, hres, h', (List.Sublist.refl a).append (sublist_cons_self x b)⟩
  · exact ⟨d, r, c, hres, h, List.Sublist.refl c⟩

theorem rename {oname nname : Name} (hfree : ∀ x ∈ c, x.1 = g.insert.addr → x.2.name = nname)
    (hroom : d.Makes (.rename oname nname) → d.Room g nname) :
    ∃ d' r c', d.rename g oname nname = .ok (d', r) ∧ d'.Ordered c' := by
  obtain ⟨l₁, r, hfind, h₁, hfound, -⟩ := h.inoFindDirent g.find oname
  simp only [Directory.rename, hfind, bind, Except.bind]
  cases r with
  | none => exact ⟨_, _, c, rfl, h₁⟩
  | some e =>
    obtain ⟨x, hx, rfl, rfl⟩ := hfound e rfl
    cases hu : (d.flags x.2.addr).unlinked with
    | true =>
      simp only [hu, if_true]
      exact ⟨_, _, c, rfl, h₁⟩
    | false =>
      obtain ⟨l₂, r, hfindNew, h₂, -, hmissed⟩ := h₁.inoFindDirent g.findNew nname
      have h₃ := h₂.markUnlinked x.2.addr
      simp only [hu, Bool.false_eq_true, if_false, hfindNew]
      cases r with
      | some e =>
        simp only
        split
        · exact ⟨_, _, c, rfl, h₂⟩
        · exact ⟨_, _, c, rfl, h₃.congr _ rfl rfl rfl⟩
      | none =>
        have hall := hmissed rfl
        have hmakes : d.Makes (.rename x.2.name nname) := by
          refine ⟨h.links_iff.mpr ⟨x, hx, rfl, hu⟩, ?_⟩
          rw [h.entries_eq]
          intro e he
          obtain ⟨y, hy, rfl⟩ := mem_map.mp he
          exact hall y hy
        have hroom' :
            (Directory.markUnlinked { d with dirEntries := l₂ } x.2.addr).Room g nname := by
          have hr := hroom hmakes
          rw [Room, h.entries_eq] at hr
          rw [Room, h₃.entries_eq]
          exact hr
        obtain ⟨d', r, c', hadd, h'⟩ :=
          h₃.inoAddDirent hfree (fun _ => hroom') (d.ino x.2.addr) .normal
        simp only [hadd]
        cases r with
        | error e => exact ⟨_, _, c', rfl, h'.congr _ rfl rfl rfl⟩
        | ok r => exact ⟨_, _, c', rfl, h'⟩

theorem lookup (g : DirGrant) (name : Name) :
    ∃ d' r, d.lookup g name = .ok (d', r) ∧ d'.Ordered c := by
  obtain ⟨l, r, hfind, h', -⟩ := h.inoFindDirent g.find name
  rw [Directory.lookup, hfind]
  cases r with
  | none => exact ⟨_, _, rfl, h'⟩
  | some e => exact ⟨_, _, rfl, h'⟩

/-- **`ovlfs_stg1_get_dirent` returns the next entry**, and the position behind it. -/
theorem getDirent (g : DirGrant) (pos : ℤ) (result : Option Dirent) :
    ∃ d' pos' r, d.getDirent g pos result = .ok (d', pos', r) ∧ d'.Ordered c ∧
      ((∃ dent, r = .ok dent) ↔ d.CanRead g) ∧
      (∀ dent, r = .ok dent →
        (Cursor.Next Dirent.position d.entries pos dent ↔ Seekable d.entries pos)) ∧
      ∀ e, r = .ok (some e) → e ∈ d.entries → pos' = e.position + 1 := by
  rw [Directory.getDirent, h.entries_eq]
  split
  case h_1 hnone =>
    obtain rfl := h.noList hnone
    refine ⟨d, pos, _, rfl, h, iff_of_true ⟨none, rfl⟩ fun m hm => ?_,
      fun dent heq => ?_, by rintro _ ⟨⟩⟩
    · rw [hnone] at hm
      cases hm
    · cases heq
      exact iff_of_true (by rintro _ ⟨⟩) (by rintro _ ⟨⟩)
  case h_2 m hm =>
    obtain ⟨hd, hp⟩ := h.list m hm
    obtain ⟨m', r, hres, hm', hp', hcan, hnext⟩ := hd.findNext_placed hp h.window g pos result
    have h' := h.withList hm' hp'
    have hread : d.CanRead g ↔ m.CanIndex g.find d.posIndex := by
      rw [CanRead, hm]
      exact ⟨fun h => h m rfl, fun h m' heq => Option.some.inj heq ▸ h⟩
    rw [← hread] at hcan
    simp only [hres, bind, Except.bind]
    rcases r with e | _ | e
    · exact ⟨_, _, _, rfl, h', hcan, hnext, by rintro _ ⟨⟩⟩
    · exact ⟨_, _, _, rfl, h', hcan, hnext, by rintro _ ⟨⟩⟩
    · refine ⟨_, _, _, rfl, h', hcan, hnext, fun e' heq hin => ?_⟩
      obtain rfl := Option.some.inj (Except.ok.inj heq)
      -- the position of an entry is not the last one
      obtain ⟨x, hx, rfl⟩ := mem_map.mp hin
      have hlt := h.behind x hx
      have hlast := d.lastDirPos.isLt
      rw [Dirent.position, BitVec.toNat_add]
      show (((x.2.pos.toNat + 1) % 2 ^ 32 : ℕ) : ℤ) = x.2.pos.toNat + 1
      rw [Nat.mod_eq_of_lt (by omega)]
      rfl

end

end Ordered

end Directory

/-! ## Runs -/

namespace DirWorld

variable {w : DirWorld} {c : List (ℕ × Dirent)}

/-- The condition on operations under which a directory stays in order: there is room for the entry
that one makes. -/
def Within (w : DirWorld) (a : DirGrant × DirCall) : Prop :=
  ∀ name, a.2.adds = some name → w.dir.Makes a.2 → w.dir.Room a.1 name

def AddsNone (w : DirWorld) (a : DirGrant × DirCall) : Prop :=
  ∀ w', w.call a = .ok w' → ∀ e ∈ w'.dir.entries, e ∈ w.dir.entries

/-- **The step lemma**: an operation that finds room leaves the directory in order, and one that is
no addition and no rename takes at most entries away. -/
theorem call_ordered (h : w.dir.Ordered c) {a : DirGrant × DirCall} (hfresh : w.Fresh a)
    (hwithin : w.Within a) : ∃ w' c', w.call a = .ok w' ∧ w'.dir.Ordered c' ∧
      (a.2.adds = none → c'.Sublist c) := by
  obtain ⟨g, call⟩ := a
  have hcall : ∀ {α : Type} {x : Except Fault (Directory × Except DirErrno α)} {d r},
      call.run w.dir g = succeeded <$> x → x = .ok (d, r) →
      ∃ told, w.call (g, call) = .ok ⟨d, told⟩ := by
    rintro α x d r hrun rfl
    exact ⟨_, call_eq hrun⟩
  cases call with
  | addDirent name inum =>
    obtain ⟨d, r, c', hres, h'⟩ := h.inoAddDirent (h.free (hfresh name rfl)) (hwithin name rfl) inum
      .normal
    obtain ⟨told, hw⟩ := hcall rfl hres
    exact ⟨_, c', hw, h', nofun⟩
  | inoAddDirent name entIno flags =>
    obtain ⟨d, r, c', hres, h'⟩ :=
      h.inoAddDirent (h.free (hfresh name rfl)) (hwithin name rfl) entIno
      flags
    obtain ⟨told, hw⟩ := hcall rfl hres
    exact ⟨_, c', hw, h', nofun⟩
  | unlink name =>
    obtain ⟨d, r, hres, h'⟩ := h.unlink g name
    obtain ⟨told, hw⟩ := hcall rfl hres
    exact ⟨_, c, hw, h', fun _ => List.Sublist.refl c⟩
  | deleteDirent name =>
    obtain ⟨d, r, c', hres, h', hsub⟩ := h.deleteDirent g name
    obtain ⟨told, hw⟩ := hcall rfl hres
    exact ⟨_, c', hw, h', fun _ => hsub⟩
  | rename oname nname =>
    obtain ⟨d, r, c', hres, h'⟩ := h.rename (h.free (hfresh nname rfl)) (hwithin nname rfl)
    obtain ⟨told, hw⟩ := hcall rfl hres
    exact ⟨_, c', hw, h', nofun⟩
  | lookup name =>
    obtain ⟨d, r, hres, h'⟩ := h.lookup g name
    obtain ⟨told, hw⟩ := hcall rfl hres
    exact ⟨_, c, hw, h', fun _ => List.Sublist.refl c⟩
  | getDirent pos result =>
    obtain ⟨d, pos', r, hres, h', -⟩ := h.getDirent g pos result
    have hrun : (DirCall.getDirent pos result).run w.dir g = .ok (d, r.isOk) := by
      rw [DirCall.run, hres]
      rfl
    exact ⟨_, c, call_eq hrun, h', fun _ => List.Sublist.refl c⟩

def InOrder (w : DirWorld) : Prop := ∃ c, w.dir.Ordered c

theorem inOrder_of_reach (h : dirCalls.Reach Within w) : w.InOrder := by
  apply h.invariant
  · exact ⟨[], .init⟩
  · rintro w a w' ⟨c, hc⟩ hfresh hwithin hstep
    obtain ⟨w'', c', hres, hc', -⟩ := call_ordered hc hfresh hwithin
    obtain rfl := Except.ok.inj (hres.symm.trans hstep)
    exact ⟨c', hc'⟩

/-- A reader that starts in the directory of `w₀` at the position `pos₀`, between the operations of
others: the contents of the directory since then, the last one first; where the directory and the
position of the reader are; and the entries that it got. -/
inductive Reading (ok : DirWorld → DirGrant × DirCall → Prop) (w₀ : DirWorld) (pos₀ : ℤ) :
    List (List Dirent) → DirWorld → ℤ → List Dirent → Prop where
  | start : Reading ok w₀ pos₀ [w₀.dir.entries] w₀ pos₀ []
  | other {past : List (List Dirent)} {w w' : DirWorld} {pos : ℤ} {got : List Dirent}
    {a : DirGrant × DirCall} : Reading ok w₀ pos₀ past w pos got → w.Fresh a → ok w a →
    w.call a = .ok w' → Reading ok w₀ pos₀ (w'.dir.entries :: past) w' pos got
  | read {past : List (List Dirent)} {w : DirWorld} {d : Directory} {pos pos' : ℤ} {e : Dirent}
    {got : List Dirent} {g : DirGrant} {result : Option Dirent} :
        Reading ok w₀ pos₀ past w pos got →
    w.dir.getDirent g pos result = .ok (d, pos', .ok (some e)) →
    Reading ok w₀ pos₀ (d.entries :: past) { w with dir := d } pos' (got ++ [e])

namespace Reading

variable {ok : DirWorld → DirGrant × DirCall → Prop} {w₀ : DirWorld} {pos₀ pos : ℤ}
  {past : List (List Dirent)} {got : List Dirent}

theorem mono {ok' : DirWorld → DirGrant × DirCall → Prop} (hok : ∀ w a, ok w a → ok' w a)
    (h : Reading ok w₀ pos₀ past w pos got) : Reading ok' w₀ pos₀ past w pos got := by
  induction h with
  | start => exact .start
  | other _ hfresh hfits hcall ih => exact ih.other hfresh (hok _ _ hfits) hcall
  | read _ hget ih => exact ih.read hget

/-- What a reader in a directory that is in order keeps: it is a reader by position. -/
structure Inv (w₀ : DirWorld) (pos₀ : ℤ) (past : List (List Dirent)) (w : DirWorld) (pos : ℤ)
    (got : List Dirent) : Prop where
  inOrder : w.InOrder
  low : 0 ≤ pos
  high : pos < 2 ^ 32
  head : ∃ older, past = w.dir.entries :: older
  keys : ∀ els ∈ past, (els.map Dirent.position).Nodup
  reading : Cursor.Reading Dirent.position w₀.dir.entries pos₀ past pos got

theorem Inv.other (h : Inv w₀ pos₀ past w pos got) (w' : DirWorld) {c : List (ℕ × Dirent)}
    (h' : w'.dir.Ordered c) : Inv w₀ pos₀ (w'.dir.entries :: past) w' pos got := by
  refine ⟨⟨c, h'⟩, h.low, h.high, ⟨past, rfl⟩, ?_, .change _ h.reading⟩
  intro els hels
  rcases mem_cons.mp hels with rfl | hels
  · rw [h'.entries_eq]
    exact h'.positions
  · exact h.keys els hels

theorem Inv.read {d : Directory} {pos' : ℤ} {e : Dirent} {g : DirGrant} {result : Option Dirent}
    (h : Inv w₀ pos₀ past w pos got)
    (hget : w.dir.getDirent g pos result = .ok (d, pos', .ok (some e))) :
    Inv w₀ pos₀ (d.entries :: past) { w with dir := d } pos' (got ++ [e]) := by
  obtain ⟨c, hc⟩ := h.inOrder
  obtain ⟨older, hpast⟩ := h.head
  obtain ⟨d', q, r, hres, hd, -, hnext, hpos⟩ := hc.getDirent g pos result
  obtain ⟨rfl, heq⟩ := Prod.mk.inj (Except.ok.inj (hres.symm.trans hget))
  cases heq
  have hfound := (hnext _ rfl).mpr (.of_lt h.low h.high)
  obtain rfl := hpos e rfl hfound.1
  have hread : Cursor.Reading Dirent.position w₀.dir.entries pos₀ past (e.position + 1)
      (got ++ [e]) := by
    have hreading := h.reading
    rw [hpast] at hreading ⊢
    exact .read hreading hfound
  have h' : Inv w₀ pos₀ past w (e.position + 1) (got ++ [e]) := by
    refine ⟨h.inOrder, ?_, ?_, h.head, h.keys, hread⟩
    · rw [Dirent.position]
      omega
    · -- the position of an entry is not the last one
      have hin := hfound.1
      rw [hc.entries_eq] at hin
      obtain ⟨x, hx, rfl⟩ := mem_map.mp hin
      have hlt := hc.behind x hx
      have hlast := w.dir.lastDirPos.isLt
      rw [Dirent.position]
      omega
  exact h'.other { w with dir := d' } hd

/-- **The run lemma**: a reader among operations that find room reads by position. -/
theorem inv (h : Reading Within w₀ pos₀ past w pos got) (h₀ : w₀.InOrder) (hlow : 0 ≤ pos₀)
    (hhigh : pos₀ < 2 ^ 32) : Inv w₀ pos₀ past w pos got := by
  induction h with
  | start =>
    refine ⟨h₀, hlow, hhigh, ⟨[], rfl⟩, ?_, .start⟩
    obtain ⟨c, hc⟩ := h₀
    intro els hels
    obtain rfl := mem_singleton.mp hels
    rw [hc.entries_eq]
    exact hc.positions
  | other _ hfresh hwithin hcall ih =>
    obtain ⟨c, hc⟩ := ih.inOrder
    obtain ⟨w', c', hres, hc', -⟩ := call_ordered hc hfresh hwithin
    obtain rfl := Except.ok.inj (hres.symm.trans hcall)
    exact ih.other _ hc'
  | read _ hget ih => exact ih.read hget

theorem subset_start (h : Reading (fun w a => w.Within a ∧ w.AddsNone a) w₀ pos₀ past w pos got)
    (h₀ : w₀.InOrder) (hlow : 0 ≤ pos₀) (hhigh : pos₀ < 2 ^ 32) :
    ∀ els ∈ past, ∀ e ∈ els, e ∈ w₀.dir.entries := by
  induction h with
  | start =>
    intro els hels e he
    obtain rfl := mem_singleton.mp hels
    exact he
  | other h hfresh hok hcall ih =>
    obtain ⟨older, hpast⟩ := (inv (h.mono fun _ _ hok => hok.1) h₀ hlow hhigh).head
    intro els hels e he
    rcases mem_cons.mp hels with rfl | hels
    · exact ih _ (hpast ▸ mem_cons_self) e (hok.2 _ hcall e he)
    · exact ih els hels e he
  | @read past w d pos pos' e' got g result h hget ih =>
    have hinv := inv (h.mono fun _ _ hok => hok.1) h₀ hlow hhigh
    obtain ⟨older, hpast⟩ := hinv.head
    obtain ⟨c, hc⟩ := hinv.inOrder
    obtain ⟨d', q, r, hres, hd, -⟩ := hc.getDirent g pos result
    obtain ⟨rfl, -⟩ := Prod.mk.inj (Except.ok.inj (hres.symm.trans hget))
    intro els hels e he
    rcases mem_cons.mp hels with rfl | hels
    · rw [hd.entries_eq, ← hc.entries_eq] at he
      exact ih _ (hpast ▸ mem_cons_self) e he
    · exact ih els hels e he

end Reading

/-- **The directory can be read**: `ovlfs_stg1_find_next` returns the next entry exactly where the
index can be read and the low 32 bits of the position do not stand for another one, and whoever
reads from position 0 on among operations that find room gets the entries in the order of their
positions. While the index can be read it comes to the end or further; at the end it has every entry
once that was there all the time, and it comes there after so many entries as are left when the
additions stop. -/
structure Readable (w₀ : DirWorld) : Prop where
  next : ∀ m, w₀.dir.dirEntries = some m → ∀ g pos result, ∃ m' r,
    Directory.findNext m g w₀.dir.posIndex pos result = .ok (m', r) ∧
      ((∃ dent, r = .ok dent ∧ Cursor.Next Dirent.position w₀.dir.entries pos dent) ↔
        m.CanIndex g.find w₀.dir.posIndex ∧ Seekable w₀.dir.entries pos)
  increasing : ∀ past w pos got, Reading Within w₀ 0 past w pos got →
    (got.map Dirent.position).Pairwise (· < ·)
  read : ∀ past w pos got, Reading Within w₀ 0 past w pos got → ∀ g result, w.dir.CanRead g →
    ∃ d pos' dent, w.dir.getDirent g pos result = .ok (d, pos', .ok dent) ∧
      Cursor.Next Dirent.position w.dir.entries pos dent ∧
      (dent = none → ∀ e, (∀ els ∈ past, e ∈ els) → got.count e = 1)
  finite : ∀ past w pos got, Reading Within w₀ 0 past w pos got → ∀ past' w' pos' got',
    Reading (fun w a => w.Within a ∧ w.AddsNone a) w pos past' w' pos' got' →
      got'.length ≤ w.dir.entries.length

end DirWorld

/-- **A directory can be read in every run in which there is room for the entries that are made.**
-/
theorem directory_read {w₀ : DirWorld} (h : dirCalls.Reach DirWorld.Within w₀) : w₀.Readable := by
  have h₀ := DirWorld.inOrder_of_reach h
  have hinv : ∀ {past w pos got}, DirWorld.Reading DirWorld.Within w₀ 0 past w pos got →
      DirWorld.Reading.Inv w₀ 0 past w pos got := fun hr => hr.inv h₀ le_rfl (by decide)
  refine ⟨?_, fun past w pos got hr => (hinv hr).reading.increasing, ?_, ?_⟩
  · intro m hm g pos result
    obtain ⟨c, hc⟩ := h₀
    obtain ⟨hd, hp⟩ := hc.list m hm
    obtain ⟨m', r, hres, -, -, hcan, hnext⟩ := hd.findNext_placed hp hc.window g pos result
    refine ⟨m', r, hres, ?_⟩
    rw [hc.entries_eq]
    constructor
    · rintro ⟨dent, rfl, hfound⟩
      exact ⟨hcan.mp ⟨dent, rfl⟩, (hnext dent rfl).mp hfound⟩
    · rintro ⟨hindex, hseek⟩
      obtain ⟨dent, rfl⟩ := hcan.mpr hindex
      exact ⟨dent, rfl, (hnext dent rfl).mpr hseek⟩
  · intro past w pos got hr g result hread
    have hr := hinv hr
    obtain ⟨c, hc⟩ := hr.inOrder
    obtain ⟨older, hpast⟩ := hr.head
    obtain ⟨d, pos', r, hres, -, hcan, hnext, -⟩ := hc.getDirent g pos result
    obtain ⟨dent, rfl⟩ := hcan.mpr hread
    have hfound := (hnext dent rfl).mpr (.of_lt hr.low hr.high)
    refine ⟨d, pos', dent, hres, hfound, ?_⟩
    rintro rfl e hstay
    have hreading := hr.reading
    have hkeys := hr.keys
    rw [hpast] at hreading hkeys hstay
    have hgot := hreading.complete_at_end hkeys hfound hstay (by rw [Dirent.position]; omega)
    have hnodup : (got.map Dirent.position).Nodup := hreading.increasing.imp fun hlt => ne_of_lt hlt
    exact List.count_eq_one_of_mem (hnodup.of_map _) hgot
  · intro past w pos got hr past' w' pos' got' hr'
    have hr := hinv hr
    have hlater := (hr'.mono fun _ _ hok => hok.1).inv hr.inOrder hr.low hr.high
    exact hlater.reading.length_le (hr'.subset_start hr.inOrder hr.low hr.high)

/-- A directory with two entries; the newer one comes first. -/
theorem directory_read_two : ∃ w, dirCalls.Reach DirWorld.Within w ∧
    w.dir.entries = [⟨3, ⟨[98], by decide⟩, 1⟩, ⟨2, ⟨[97], by decide⟩, 0⟩] ∧ w.Readable := by
  have h₁ : dirCalls.Reach DirWorld.Within _ :=
    .step (a := (.ample 10, .addDirent ⟨[97], by decide⟩ 5)) .init nofun
      (fun _ _ _ _ _ => ⟨by decide, fun _ => nofun⟩) rfl
  have h₂ := h₁.next (.ample 20, .addDirent ⟨[98], by decide⟩ 6)
    (fun _ _ _ hm _ hn => nomatch Option.some.inj hm ▸ hn)
    (fun _ _ _ _ _ => ⟨by decide, fun _ e he _ => by
      obtain rfl := List.mem_singleton.mp (show e ∈ [_] from he)
      decide⟩) rfl
  exact ⟨_, h₂, rfl, directory_read h₂⟩

/-- An entry at position 0 is found at position 2³², behind the end. -/
theorem position_truncated : ∃ w m, dirCalls.Reach (fun _ _ => True) w ∧
    w.dir.dirEntries = some m ∧ w.dir.entries = [⟨2, ⟨[97], by decide⟩, 0⟩] ∧
    (∃ m', Directory.findNext m (.ample 0) w.dir.posIndex (2 ^ 32) none =
      .ok (m', .ok (some ⟨2, ⟨[97], by decide⟩, 0⟩))) ∧
    ¬ Cursor.Next Dirent.position w.dir.entries (2 ^ 32) (some ⟨2, ⟨[97], by decide⟩, 0⟩) ∧
    Cursor.Next Dirent.position w.dir.entries (2 ^ 32) none := by
  have h₁ : dirCalls.Reach (fun _ _ => True) _ :=
    .step (a := (.ample 10, .addDirent ⟨[97], by decide⟩ 5)) .init nofun trivial rfl
  refine ⟨_, _, h₁, rfl, rfl, ⟨_, rfl⟩, fun h => absurd h.2.1 (by decide), ?_⟩
  intro e he
  obtain rfl := List.mem_singleton.mp he
  decide

end Ovlfs
