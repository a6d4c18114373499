import ReadingComment.Ovlfs.DirectoryRuns

/-!
# Operations on a directory that fail

What an operation leaves of the entries when it returns a negative code, in every state
that the operations can bring a directory into, with memory or without.

`ovlfs_stg1_rename` takes back what it has done. `ovlfs_ino_add_dirent` removes a marked
entry of the name before it has the memory for the new one, and does not put it back.
-/

namespace Ovlfs

namespace Directory

/-- The nodes of the list of a directory; one without a list has none. -/
def Nodes (d : Directory) (c : List (ℕ × Dirent)) : Prop :=
  (d.dirEntries = none → c = []) ∧
    ∀ m, d.dirEntries = some m → Linked m.heap.node m.list.firstElement c

/-- The directory has the entries that it had, in their order, with their inodes and flags, and
counts as many. -/
def Unchanged (d d' : Directory) : Prop :=
  ∃ c, d.Nodes c ∧ d'.Nodes c ∧ d.Same c d'

def Marks (d : Directory) (name : Name) : Prop :=
  ∃ c, d.Nodes c ∧ ∃ x ∈ c, x.2.name = name ∧ (d.flags x.2.addr).unlinked = true

theorem Nodes.unique {d : Directory} {c c' : List (ℕ × Dirent)} (h : d.Nodes c)
    (h' : d.Nodes c') : c = c' := by
  cases hlist : d.dirEntries with
  | none => rw [h.1 hlist, h'.1 hlist]
  | some m => exact (h.2 m hlist).unique (h'.2 m hlist)

namespace Good

variable {d d' : Directory} {c : List (ℕ × Dirent)} {told : Report} {g : DirGrant} {name : Name}

theorem nodes (h : d.Good c told) : d.Nodes c := ⟨h.noList, fun m hm => (h.list m hm).linked⟩

theorem marks_iff (h : d.Good c told) : d.Marks name ↔ ∃ i, told name = some (i, true) := by
  constructor
  · rintro ⟨c', hnodes, x, hx, rfl, hu⟩
    obtain rfl := hnodes.unique h.nodes
    exact ⟨d.ino x.2.addr, by rw [h.told_entry hx, entry, hu]⟩
  · rintro ⟨i, htold⟩
    obtain ⟨x, hx, hname, hentry⟩ := (h.told name _).mp htold
    exact ⟨c, h.nodes, x, hx, hname, (Prod.mk.inj hentry).2⟩

theorem not_unchanged {c' : List (ℕ × Dirent)} (h : d.Good c told)
    (h' : d'.Good c' (Function.update told name none)) (htold : told name ≠ none) :
    ¬ d.Unchanged d' := by
  rintro ⟨b, hb, hb', -⟩
  obtain rfl := hb.unique h.nodes
  obtain rfl := hb'.unique h'.nodes
  exact htold (h.told_eq_none.mpr (h'.told_eq_none.mp (Function.update_self ..)))

theorem free (h : d.Good c told) {p : ℕ} (hfree : ∀ m, d.dirEntries = some m → ∀ n,
    m.heap.node p = some n → n.element.name = name) : ∀ x ∈ c, x.1 = p → x.2.name = name :=
  DirWorld.free (w := ⟨d, told⟩) (a := (.ample p, .addDirent name 0)) h
    (fun _ hn m hm n hnode => Option.some.inj hn ▸ hfree m hm n hnode) rfl

end Good

end Directory

/-! ## Every state of a directory -/

/-- The entries are those of a directory, whatever is told of them. -/
def DirWorld.Stands (w : DirWorld) : Prop := ∃ c told, w.dir.Good c told

theorem DirWorld.call_dir {w w' : DirWorld} {a : DirGrant × DirCall} (h : w.call a = .ok w')
    (told : Report) : ∃ told', DirWorld.call ⟨w.dir, told⟩ a = .ok ⟨w'.dir, told'⟩ := by
  obtain ⟨⟨d, ok⟩, hrun, hres⟩ := Lib.bind_eq_ok h
  cases hres
  exact ⟨_, call_eq hrun⟩

theorem DirWorld.call_stands {w w' : DirWorld} {a : DirGrant × DirCall} (h : w.Stands)
    (hfresh : w.Fresh a) (hcall : w.call a = .ok w') : w'.Stands := by
  obtain ⟨c, told, h⟩ := h
  obtain ⟨told', hcall'⟩ := call_dir hcall told
  by_cases hfits : Fits ⟨w.dir, told⟩ a
  · obtain ⟨w'', c', hres, h'⟩ := call_good (w := ⟨w.dir, told⟩) h hfresh hfits
    obtain rfl := Except.ok.inj (hres.symm.trans hcall')
    exact ⟨c', _, h'⟩
  · obtain ⟨name, i, d, c', -, hres, h'⟩ := call_lost (w := ⟨w.dir, told⟩) h hfits
    obtain ⟨rfl, -⟩ := DirWorld.mk.inj (Except.ok.inj (hres.symm.trans hcall'))
    exact ⟨c', _, h'⟩

theorem DirWorld.stands {w : DirWorld} (h : dirCalls.Reach (fun _ _ => True) w) : w.Stands := by
  apply h.invariant
  · refine ⟨[], fun _ => none, fun _ => rfl, nofun, List.nodup_nil, List.nodup_nil, nofun, rfl, ?_⟩
    intro name v
    constructor
    · nofun
    · rintro ⟨x, hx, -⟩
      cases hx
  · exact fun w a w' h hfresh _ hstep => call_stands h hfresh hstep

theorem DirWorld.marked_lost {w : DirWorld} {g : DirGrant} {name : Name} (h : w.Stands)
    (hmarks : w.dir.Marks name) (hmem : ¬ g.Memory) (entIno : ℕ) (flags : Flags) :
    ∃ d, w.dir.inoAddDirent g name entIno flags = .ok (d, .error .enomem) ∧
      ¬ w.dir.Unchanged d := by
  obtain ⟨c, told, h⟩ := h
  obtain ⟨i, htold⟩ := h.marks_iff.mp hmarks
  obtain ⟨d, c', hres, h'⟩ := h.inoAddDirent_lost htold hmem entIno flags
  exact ⟨d, hres, h.not_unchanged h' (by rw [htold]; exact Option.some_ne_none _)⟩

/-- **Operations that fail.** In every state of a directory, `ovlfs_stg1_rename` that fails has
changed nothing; `ovlfs_ino_add_dirent` that fails has changed nothing if and only if there is no
marked entry of the name, or there was memory for the new one. -/
theorem failed_updates {w : DirWorld} (h : dirCalls.Reach (fun _ _ => True) w) (g : DirGrant)
    (name : Name) (entIno : ℕ) (flags : Flags) (oname nname : Name)
    (hadd : w.Fresh (g, .inoAddDirent name entIno flags)) (hren : w.Fresh (g,
      .rename oname nname)) :
    (∃ d r, w.dir.inoAddDirent g name entIno flags = .ok (d, r) ∧
      ((∀ e, r = .error e → w.dir.Unchanged d) ↔ (w.dir.Marks name → g.Memory))) ∧
    ∃ d r, w.dir.rename g oname nname = .ok (d, r) ∧ ∀ e, r = .error e → w.dir.Unchanged d := by
  obtain ⟨c, told, hgood⟩ := DirWorld.stands h
  constructor
  · by_cases hfits : w.dir.Marks name → g.Memory
    · obtain ⟨d, hres⟩ := hgood.inoAddDirent (g := g) (hgood.free (hadd name rfl))
        (fun i hi => hfits (hgood.marks_iff.mpr ⟨i, hi⟩)) entIno flags
      rcases hres with ⟨hres, -⟩ | ⟨⟨e, hres⟩, hgood', hsame⟩
      · exact ⟨d, _, hres, iff_of_true nofun hfits⟩
      · exact ⟨d, _, hres, iff_of_true (fun _ _ => ⟨c, hgood.nodes, hgood'.nodes, hsame⟩) hfits⟩
    · obtain ⟨hmarks, hmem⟩ := Classical.not_imp.mp hfits
      obtain ⟨d, hres, hchanged⟩ := DirWorld.marked_lost ⟨c, told, hgood⟩ hmarks hmem entIno flags
      exact ⟨d, _, hres, iff_of_false (fun hall => hchanged (hall _ rfl)) hfits⟩
  · obtain ⟨d, hres⟩ := hgood.rename (g := g) (hgood.free (hren nname rfl))
    rcases hres with ⟨hres, -⟩ | ⟨⟨e, hres⟩, hgood', hsame⟩
    · exact ⟨d, _, hres, nofun⟩
    · exact ⟨d, _, hres, fun _ _ => ⟨c, hgood.nodes, hgood'.nodes, hsame⟩⟩

/-- A directory with two entries, and no memory for a third one: to add it and to rename the first
one to it fail alike, and nothing is changed. -/
theorem failed_updates_full :
    ∃ w d d', dirCalls.Reach (fun _ _ => True) w ∧ w.told ⟨[97], by decide⟩ = some (5, false) ∧
      w.told ⟨[98], by decide⟩ = some (6, false) ∧
      w.dir.inoAddDirent { DirGrant.ample 30 with dirent := false } ⟨[99], by decide⟩ 7 .normal =
        .ok (d, .error .enomem) ∧ w.dir.Unchanged d ∧
      w.dir.rename { DirGrant.ample 30 with dirent := false } ⟨[97], by decide⟩ ⟨[99], by decide⟩ =
        .ok (d', .error .enomem) ∧ w.dir.Unchanged d' := by
  have h₁ : dirCalls.Reach (fun _ _ => True) _ :=
    .step (a := (.ample 10, .addDirent ⟨[97], by decide⟩ 5)) .init nofun trivial rfl
  have h₂ := h₁.next (.ample 20, .addDirent ⟨[98], by decide⟩ 6)
    (fun _ _ _ hm _ hn => nomatch Option.some.inj hm ▸ hn) trivial rfl
  obtain ⟨⟨d, r, hadd, hiff⟩, d', r', hrename, hkept⟩ :=
    failed_updates h₂ { DirGrant.ample 30 with dirent := false } ⟨[99], by decide⟩ 7 .normal
      ⟨[97], by decide⟩ ⟨[99], by decide⟩ (fun _ _ _ hm _ hn => nomatch Option.some.inj hm ▸ hn)
      (fun _ _ _ hm _ hn => nomatch Option.some.inj hm ▸ hn)
  obtain ⟨rfl, rfl⟩ := Prod.mk.inj (Except.ok.inj hadd)
  obtain ⟨rfl, rfl⟩ := Prod.mk.inj (Except.ok.inj hrename)
  refine ⟨_, _, _, h₂, rfl, rfl, rfl, hiff.mpr ?_ _ rfl, rfl, hkept _ rfl⟩
  rintro ⟨c, hc, x, hx, hname, -⟩
  obtain rfl : c = [(20, ⟨3, ⟨[98], by decide⟩, 1⟩), (10, ⟨2, ⟨[97], by decide⟩, 0⟩)] := by
    refine hc.unique ⟨nofun, fun m hm => ?_⟩
    cases hm
    exact ⟨rfl, some 10, rfl, rfl, none, rfl, rfl⟩
  rcases List.mem_pair.mp hx with rfl | rfl <;> cases hname

/-- An entry is added and unlinked; as it is added again, there is no memory, and the mark that
hides the file of the base filesystem is lost. -/
theorem mark_lost :
    ∃ w, dirCalls.Reach (fun _ _ => True) w ∧ w.dir.Marks ⟨[97], by decide⟩ ∧
      ∃ d, w.dir.inoAddDirent { DirGrant.ample 20 with dirent := false }
        ⟨[97], by decide⟩ 7 .normal =
        .ok (d, .error .enomem) ∧ ¬ w.dir.Unchanged d := by
  have h₁ : dirCalls.Reach (fun _ _ => True) _ :=
    .step (a := (.ample 10, .addDirent ⟨[97], by decide⟩ 5)) .init nofun trivial rfl
  have h₂ := h₁.next (.ample 20, .unlink ⟨[97], by decide⟩) nofun trivial rfl
  obtain ⟨w, hw, hmarks⟩ : ∃ w, dirCalls.Reach (fun _ _ => True) w ∧
      w.dir.Marks ⟨[97], by decide⟩ := by
    refine ⟨_, h₂, [(10, ⟨2, ⟨[97], by decide⟩, 0⟩)], ⟨nofun, fun m hm => ?_⟩,
      _, List.mem_singleton_self _, rfl, rfl⟩
    cases hm
    exact ⟨rfl, none, rfl, rfl⟩
  have hmem :
      ¬ ({ DirGrant.ample 20 with dirent := false } : DirGrant).Memory := fun h => nomatch h.1
  exact ⟨w, hw, hmarks, DirWorld.marked_lost (DirWorld.stands hw) hmarks hmem 7 .normal⟩

end Ovlfs
