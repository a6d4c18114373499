import ReadingComment.Ovlfs.DirectoryBooks
import ReadingComment.Ovlfs.InodeNumbers

/-!
# Operations on a directory, one after the other

A run takes the operations of the storage on one directory in any order, with any names
and with memory or without, and notes what the successful ones make of each name.
Entries are also added as the storage is read, with any inode and flags, and the
directory is read by position in between.

The directory keeps its books (`DirWorld.Booked`) in every run in which no marked entry is
added anew without memory; where one is, the books are wrong from then on.
-/

namespace Ovlfs

open Function

/-- The operations on a directory. -/
inductive DirCall where
  | addDirent (name : Name) (inum : ℕ)
  /-- an entry that is read from the storage -/
  | inoAddDirent (name : Name) (entIno : ℕ) (flags : Flags)
  | unlink (name : Name)
  | deleteDirent (name : Name)
  | rename (oname nname : Name)
  | lookup (name : Name)
  | getDirent (pos : ℤ) (result : Option Dirent)

def succeeded {α ε : Type} (r : Directory × Except ε α) : Directory × Bool := (r.1, r.2.isOk)

/-- What an operation does to the directory, and whether it is successful. -/
def DirCall.run (d : Directory) (g : DirGrant) : DirCall → Except Fault (Directory × Bool)
  | .addDirent name inum => succeeded <$> d.addDirent g name inum
  | .inoAddDirent name entIno flags => succeeded <$> d.inoAddDirent g name entIno flags
  | .unlink name => succeeded <$> d.unlink g name
  | .deleteDirent name => succeeded <$> d.deleteDirent g name
  | .rename oname nname => succeeded <$> d.rename g oname nname
  | .lookup name => succeeded <$> d.lookup g name
  | .getDirent pos result => (fun r => (r.1, r.2.2.isOk)) <$> d.getDirent g pos result

def gone : Option (ℕ × Bool) → Option (ℕ × Bool) := Option.map fun v => (v.1, true)

def renamed : Option (ℕ × Bool) → Option (ℕ × Bool) := Option.map fun v => (v.1, false)

def DirCall.tells (told : Report) : DirCall → Report
  | .addDirent name inum => Function.update told name (some (inum, false))
  | .inoAddDirent name entIno flags => Function.update told name (some (entIno, flags.unlinked))
  | .unlink name => Function.update told name (gone (told name))
  | .deleteDirent name => Function.update told name none
  | .rename oname nname =>
    if oname = nname then told
    else Function.update (Function.update told nname (renamed (told oname))) oname
      (gone (told oname))
  | .lookup _ => told
  | .getDirent _ _ => told

/-- The directory, and what was made of the names. -/
structure DirWorld where
  dir : Directory
  told : Report

def DirWorld.call (w : DirWorld) (a : DirGrant × DirCall) : Except Fault DirWorld := do
  let (d, ok) ← a.2.run w.dir a.1
  return ⟨d, if ok then a.2.tells w.told else w.told⟩

def DirCall.adds : DirCall → Option Name
  | .addDirent name _ => some name
  | .inoAddDirent name _ _ => some name
  | .rename _ nname => some nname
  | _ => none

/-- `kmalloc` puts a node where none is, but for that of the entry which is removed first. -/
def DirWorld.Fresh (w : DirWorld) (a : DirGrant × DirCall) : Prop :=
  ∀ name, a.2.adds = some name → ∀ m, w.dir.dirEntries = some m →
    ∀ n, m.heap.node a.1.insert.addr = some n → n.element.name = name

def dirCalls : Lib.System DirWorld (DirGrant × DirCall) Fault where
  init := ⟨.init, fun _ => none⟩
  Allowed := DirWorld.Fresh
  step := DirWorld.call

def Reports (r : Except DirErrno (ℕ × Flags)) : Option (ℕ × Bool) → Prop
  | none => r = .error .enoent
  | some (i, unlinked) => ∃ flags, r = .ok (i, flags) ∧ flags.unlinked = unlinked

/-- **The books of a directory are kept**: its entries have different names, the inode counts those
that are marked, the directory has as many entries as are not, and a lookup reports what was made of
a name. -/
structure DirWorld.Booked (w : DirWorld) : Prop where
  entries : ∃ c : List (ℕ × Dirent), (w.dir.dirEntries = none → c = []) ∧
    (∀ m, w.dir.dirEntries = some m → Linked m.heap.node m.list.firstElement c) ∧
    (c.map fun x => x.2.name).Nodup ∧
    w.dir.numRmEnt = c.countP (fun x => (w.dir.flags x.2.addr).unlinked) ∧
    w.dir.numDirent false = c.countP fun x => !(w.dir.flags x.2.addr).unlinked
  lookups : ∀ g name, ∃ d r, w.dir.lookup g name = .ok (d, r) ∧ Reports r (w.told name)

/-- The condition on operations under which the books are kept: an entry that is marked is added
anew only when there is memory. -/
def DirWorld.Fits (w : DirWorld) (a : DirGrant × DirCall) : Prop :=
  match a.2 with
  | .addDirent name _ => ∀ i, w.told name = some (i, true) → a.1.Memory
  | .inoAddDirent name _ _ => ∀ i, w.told name = some (i, true) → a.1.Memory
  | _ => True

namespace Directory.Good

variable {d : Directory} {c : List (ℕ × Dirent)} {told : Report} {g : DirGrant} {name : Name}

theorem numDirent (h : d.Good c told) :
    d.numDirent false = c.countP fun x => !(d.flags x.2.addr).unlinked := by
  rw [Directory.numDirent]
  split
  · rename_i hnone
    rw [h.noList hnone]
    rfl
  · rename_i m hm
    have hsum := List.length_eq_countP_add_countP (fun x : ℕ × Dirent =>
      (d.flags x.2.addr).unlinked) (l := c)
    simp only [decide_not, Bool.decide_eq_true] at hsum
    have hcount := h.count
    simp only [Bool.false_eq_true, if_false, (h.list m hm).count]
    omega

theorem lookup (h : d.Good c told) (g : DirGrant) (name : Name) :
    ∃ d' r, d.lookup g name = .ok (d', r) ∧ d'.Good c told ∧ Reports r (told name) := by
  obtain ⟨l, r, hfind, h', hfound, hmissed⟩ := h.inoFindDirent g.find name
  rw [Directory.lookup, hfind]
  cases r with
  | none =>
    refine ⟨_, _, rfl, h', ?_⟩
    rw [h.told_eq_none.mpr (hmissed rfl)]
    exact rfl
  | some e =>
    obtain ⟨x, hx, rfl, rfl⟩ := hfound e rfl
    refine ⟨_, _, rfl, h', ?_⟩
    rw [h.told_entry hx]
    exact ⟨_, rfl, rfl⟩

theorem unlink (h : d.Good c told) (g : DirGrant) (name : Name) :
    ∃ d', (d.unlink g name = .ok (d', .ok ()) ∧
        d'.Good c (update told name (gone (told name)))) ∨
      ((∃ e, d.unlink g name = .ok (d', .error e)) ∧ d'.Good c told) := by
  rw [Directory.unlink, Directory.unlinkDirent]
  split
  · rename_i hnone
    have hall : ∀ x ∈ c, x.2.name ≠ name := by
      rw [h.noList hnone]
      exact fun x hx => nomatch hx
    have htold : told name = none := h.told_eq_none.mpr hall
    refine ⟨d, .inl ⟨rfl, ?_⟩⟩
    rw [htold, gone, Option.map_none, h.update_none hall]
    exact h
  · rename_i m hm
    obtain ⟨m', r, hres, hm', -, hfound, -⟩ := (h.list m hm).find g.find name
    have h' := h.withList hm'
    rw [hres]
    cases r with
    | none => exact ⟨_, .inr ⟨⟨_, rfl⟩, h'⟩⟩
    | some e =>
      obtain ⟨hin, rfl⟩ := hfound e rfl
      obtain ⟨x, hx, rfl⟩ := List.mem_map.mp hin
      cases hu : (d.flags x.2.addr).unlinked with
      | true =>
        refine ⟨_, .inr ⟨⟨.enoent, ?_⟩, h'⟩⟩
        simp only [bind, Except.bind, hu, if_true]
        rfl
      | false =>
        have hmarked := h'.markUnlinked hx hu
        refine ⟨_, .inl ⟨?_, by rw [h.told_entry hx]; exact hmarked⟩⟩
        simp only [bind, Except.bind, hu, Bool.false_eq_true, if_false]
        rfl

theorem deleteDirent (h : d.Good c told) (g : DirGrant) (name : Name) :
    ∃ d' c', (d.deleteDirent g name = .ok (d', .ok ()) ∧
        d'.Good c' (update told name none)) ∨
      ((∃ e, d.deleteDirent g name = .ok (d', .error e)) ∧ d'.Good c' told) := by
  rw [Directory.deleteDirent]
  rcases h.removeDirent g.remove name with ⟨d', a, b, x, hres, -, -, -, h'⟩ | ⟨hall, r, hres⟩
  · exact ⟨d', a ++ b, .inl ⟨hres, h'⟩⟩
  · refine ⟨d, c, ?_⟩
    cases r with
    | error e => exact .inr ⟨⟨e, hres⟩, h⟩
    | ok r => exact .inl ⟨hres, by rw [h.update_none hall]; exact h⟩

theorem same_reinstate {d d' : Directory} {x : ℕ × Dirent}
    (hu : (d.flags x.2.addr).unlinked = false) (hsame : (d.markUnlinked x.2.addr).Same c d') :
    d.Same c (d'.reinstate x.2.addr) := by
  refine ⟨fun y hy => ⟨(hsame.entries y hy).1, ?_⟩, ?_⟩
  · have hflags : d'.flags y.2.addr = update d.flags x.2.addr
        { d.flags x.2.addr with unlinked := true } y.2.addr := (hsame.entries y hy).2
    show update d'.flags x.2.addr { d'.flags x.2.addr with unlinked := false } y.2.addr = _
    rcases eq_or_ne y.2.addr x.2.addr with heq | hne
    · rw [heq, update_self] at hflags
      rw [heq, update_self, hflags, ← hu]
    · rw [update_of_ne hne] at hflags
      rwa [update_of_ne hne]
  · exact (congrArg (· - 1) hsame.count).trans (add_sub_cancel_right _ _)

theorem rename (h : d.Good c told) {oname nname : Name}
    (hfree : ∀ x ∈ c, x.1 = g.insert.addr → x.2.name = nname) :
    ∃ d', (d.rename g oname nname = .ok (d', .ok ()) ∧
        ∃ c', d'.Good c' ((DirCall.rename oname nname).tells told)) ∨
      ((∃ e, d.rename g oname nname = .ok (d', .error e)) ∧ d'.Good c told ∧ d.Same c d') := by
  obtain ⟨l₁, r, hfind, h₁, hfound, -⟩ := h.inoFindDirent g.find oname
  simp only [Directory.rename, hfind, bind, Except.bind]
  cases r with
  | none => exact ⟨_, .inr ⟨⟨_, rfl⟩, h₁, fun _ _ => ⟨rfl, rfl⟩, rfl⟩⟩
  | some e =>
    obtain ⟨x, hx, rfl, rfl⟩ := hfound e rfl
    cases hu : (d.flags x.2.addr).unlinked with
    | true =>
      simp only [hu, if_true]
      exact ⟨_, .inr ⟨⟨_, rfl⟩, h₁, fun _ _ => ⟨rfl, rfl⟩, rfl⟩⟩
    | false =>
      obtain ⟨l₂, r, hfindNew, h₂, hfoundNew, hmissed⟩ := h₁.inoFindDirent g.findNew nname
      have h₃ := h₂.markUnlinked hx hu
      have htold : told x.2.name = some (d.ino x.2.addr, false) := by
        rw [h.told_entry hx, entry, hu]
      simp only [hu, Bool.false_eq_true, if_false, hfindNew]
      cases r with
      | some e =>
        obtain ⟨y, hy, rfl, rfl⟩ := hfoundNew e rfl
        rcases eq_or_ne y.2.addr x.2.addr with heq | hne
        · have hname : x.2.name = y.2.name := by rw [List.inj_on_of_nodup_map h.addrs hy hx heq]
          simp only [heq, if_true]
          refine ⟨_, .inl ⟨rfl, c, ?_⟩⟩
          rw [DirCall.tells, if_pos hname]
          exact h₂
        · have hname : x.2.name ≠ y.2.name := by
            intro heq
            rw [List.inj_on_of_nodup_map h.names hx hy heq] at hne
            exact hne rfl
          simp only [hne, if_false]
          refine ⟨_, .inl ⟨rfl, c, ?_⟩⟩
          rw [DirCall.tells, if_neg hname, update_comm hname.symm, htold]
          exact h₃.relink x.2.addr hy
      | none =>
        have hall := hmissed rfl
        have hname : x.2.name ≠ nname := hall x hx
        have hnone : ∀ i, update told x.2.name (some (d.ino x.2.addr, true)) nname ≠
            some (i, true) := by
          intro i
          rw [update_of_ne hname.symm, h.told_eq_none.mpr hall]
          rintro ⟨⟩
        obtain ⟨d', hadd⟩ := h₃.inoAddDirent hfree (fun i hi => absurd hi (hnone i))
          (d.ino x.2.addr) .normal
        rcases hadd with ⟨hres, c', h'⟩ | ⟨⟨e, hres⟩, h', hsame⟩
        · simp only [hres]
          refine ⟨_, .inl ⟨rfl, c', ?_⟩⟩
          rw [DirCall.tells, if_neg hname, update_comm hname.symm, htold]
          exact h'
        · simp only [hres]
          refine ⟨_, .inr ⟨⟨e, rfl⟩, ?_, same_reinstate hu ⟨hsame.entries, hsame.count⟩⟩⟩
          -- the entry is as it was marked, so its mark is taken back
          have hentry := h'.told_entry hx
          rw [update_self] at hentry
          obtain ⟨hino, hmark⟩ := Prod.mk.inj (Option.some.inj hentry)
          have hback := h'.reinstate hx hmark.symm
          rw [← hino, update_idem, ← htold, update_eq_self] at hback
          exact hback

theorem getDirent (h : d.Good c told) (g : DirGrant) (pos : ℤ) (result : Option Dirent) :
    ∃ d' r, d.getDirent g pos result = .ok (d', r) ∧ d'.Good c told := by
  rw [Directory.getDirent]
  split
  · exact ⟨d, _, rfl, h⟩
  · rename_i m hm
    obtain ⟨m', r, hres, hm'⟩ := (h.list m hm).findNext g d.posIndex pos result
    have h' := h.withList hm'
    simp only [hres, bind, Except.bind]
    rcases r with e | dent
    · exact ⟨_, _, rfl, h'⟩
    · cases dent with
      | none => exact ⟨_, _, rfl, h'⟩
      | some dent => exact ⟨_, _, rfl, h'⟩

end Directory.Good

namespace DirWorld

variable {w : DirWorld} {c : List (ℕ × Dirent)}

variable {a : DirGrant × DirCall}

theorem free (h : w.dir.Good c w.told) (hfresh : w.Fresh a) {name : Name}
    (hadds : a.2.adds = some name) : ∀ x ∈ c, x.1 = a.1.insert.addr → x.2.name = name := by
  intro x hx heq
  cases hlist : w.dir.dirEntries with
  | none =>
    rw [h.noList hlist] at hx
    cases hx
  | some m =>
    obtain ⟨next, hnode⟩ := (h.list m hlist).linked.node_eq hx
    exact hfresh name hadds m hlist _ (heq ▸ hnode)

theorem call_eq {g : DirGrant} {call : DirCall} {d : Directory} {ok : Bool}
    (hrun : call.run w.dir g = .ok (d, ok)) :
    w.call (g, call) = .ok ⟨d, if ok then call.tells w.told else w.told⟩ := by
  rw [DirWorld.call, hrun]
  rfl

theorem call_outcome {g : DirGrant} {call : DirCall} {α : Type}
    {x : Except Fault (Directory × Except DirErrno α)} (hrun : call.run w.dir g = succeeded <$> x)
    {d : Directory} {c' : List (ℕ × Dirent)}
    (h : (∃ r, x = .ok (d, .ok r) ∧ d.Good c' (call.tells w.told)) ∨
      ((∃ e, x = .ok (d, .error e)) ∧ d.Good c' w.told)) :
    ∃ w' c', w.call (g, call) = .ok w' ∧ w'.dir.Good c' w'.told := by
  rcases h with ⟨r, rfl, h⟩ | ⟨⟨e, rfl⟩, h⟩
  · exact ⟨_, c', call_eq hrun, h⟩
  · exact ⟨_, c', call_eq hrun, h⟩

/-- **The step lemma**: an operation that fits returns and keeps the books. -/
theorem call_good (h : w.dir.Good c w.told) (hfresh : w.Fresh a) (hfits : w.Fits a) :
    ∃ w' c', w.call a = .ok w' ∧ w'.dir.Good c' w'.told := by
  obtain ⟨g, call⟩ := a
  cases call with
  | addDirent name inum =>
    obtain ⟨d, hadd⟩ := h.inoAddDirent (free h hfresh rfl) hfits inum .normal
    rcases hadd with ⟨hres, c', h'⟩ | ⟨hres, h', -⟩
    · exact call_outcome rfl (.inl ⟨(), hres, h'⟩)
    · exact call_outcome rfl (.inr ⟨hres, h'⟩)
  | inoAddDirent name entIno flags =>
    obtain ⟨d, hadd⟩ := h.inoAddDirent (free h hfresh rfl) hfits entIno flags
    rcases hadd with ⟨hres, c', h'⟩ | ⟨hres, h', -⟩
    · exact call_outcome rfl (.inl ⟨(), hres, h'⟩)
    · exact call_outcome rfl (.inr ⟨hres, h'⟩)
  | unlink name =>
    obtain ⟨d, hres⟩ := h.unlink g name
    exact call_outcome rfl (hres.imp_left fun h => ⟨(), h⟩)
  | deleteDirent name =>
    obtain ⟨d, c', hres⟩ := h.deleteDirent g name
    exact call_outcome rfl (hres.imp_left fun h => ⟨(), h⟩)
  | rename oname nname =>
    obtain ⟨d, hren⟩ := h.rename (free h hfresh rfl)
    rcases hren with ⟨hres, c', h'⟩ | ⟨hres, h', -⟩
    · exact call_outcome rfl (.inl ⟨(), hres, h'⟩)
    · exact call_outcome rfl (.inr ⟨hres, h'⟩)
  | lookup name =>
    obtain ⟨d, r, hres, h', -⟩ := h.lookup g name
    cases r with
    | ok v => exact call_outcome rfl (.inl ⟨v, hres, h'⟩)
    | error e => exact call_outcome rfl (.inr ⟨⟨e, hres⟩, h'⟩)
  | getDirent pos result =>
    obtain ⟨d, r, hres, h'⟩ := h.getDirent g pos result
    have hrun : (DirCall.getDirent pos result).run w.dir g = .ok (d, r.2.isOk) := by
      rw [DirCall.run, hres]
      rfl
    refine ⟨_, c, call_eq hrun, ?_⟩
    cases r.2.isOk <;> exact h'

theorem call_lost (h : w.dir.Good c w.told) (hfits : ¬ w.Fits a) :
    ∃ name i d c', w.told name = some (i, true) ∧ w.call a = .ok ⟨d, w.told⟩ ∧
      d.Good c' (update w.told name none) := by
  obtain ⟨g, call⟩ := a
  have hlost : ∀ name entIno flags,
      call.run w.dir g = succeeded <$> w.dir.inoAddDirent g name entIno flags →
      ¬ (∀ i, w.told name = some (i, true) → g.Memory) →
      ∃ name i d c', w.told name = some (i, true) ∧ w.call (g, call) = .ok ⟨d, w.told⟩ ∧
        d.Good c' (update w.told name none) := by
    intro name entIno flags hrun hmem
    push Not at hmem
    obtain ⟨i, htold, hmem⟩ := hmem
    obtain ⟨d, c', hres, h'⟩ := h.inoAddDirent_lost htold hmem entIno flags
    have hfailed : call.run w.dir g = .ok (d, false) := by
      rw [hrun, hres]
      rfl
    exact ⟨name, i, d, c', htold, call_eq hfailed, h'⟩
  cases call with
  | addDirent name inum => exact hlost name inum .normal rfl hfits
  | inoAddDirent name entIno flags => exact hlost name entIno flags rfl hfits
  | unlink name => exact absurd trivial hfits
  | deleteDirent name => exact absurd trivial hfits
  | rename oname nname => exact absurd trivial hfits
  | lookup name => exact absurd trivial hfits
  | getDirent pos result => exact absurd trivial hfits

def Kept (w : DirWorld) : Prop := ∃ c, w.dir.Good c w.told

theorem booked (h : w.dir.Good c w.told) : w.Booked := by
  refine ⟨⟨c, h.noList, fun m hm => (h.list m hm).linked, h.names, h.count, h.numDirent⟩, ?_⟩
  intro g name
  obtain ⟨d, r, hres, -, hreports⟩ := h.lookup g name
  exact ⟨d, r, hres, hreports⟩

/-- **Exactly the operations that fit keep the books**: one that does not fails, and the name is not
found any more, though it is told that it was unlinked. -/
theorem call_booked_iff (h : w.dir.Good c w.told) (hfresh : w.Fresh a) :
    (∃ w', w.call a = .ok w' ∧ w'.Booked) ↔ w.Fits a := by
  constructor
  · rintro ⟨w', hcall, hbooked⟩
    by_contra hfits
    obtain ⟨name, i, d, c', htold, hres, h'⟩ := call_lost h hfits
    obtain rfl := Except.ok.inj (hcall.symm.trans hres)
    obtain ⟨d₁, r, hlookup, hreports⟩ := hbooked.lookups a.1 name
    obtain ⟨d₂, r', hlookup', -, hmissing⟩ := h'.lookup a.1 name
    obtain ⟨-, rfl⟩ := Prod.mk.inj (Except.ok.inj (hlookup.symm.trans hlookup'))
    rw [update_self] at hmissing
    rw [htold] at hreports
    obtain ⟨flags, hr, -⟩ := hreports
    exact nomatch hr.symm.trans hmissing
  · intro hfits
    obtain ⟨w', c', hcall, h'⟩ := call_good h hfresh hfits
    exact ⟨w', hcall, booked h'⟩

end DirWorld

/-- **The books of a directory are kept in every run whose operations fit**, and in each of its
states exactly the operations that fit keep them. -/
theorem directory_booked {w : DirWorld} (h : dirCalls.Reach DirWorld.Fits w) :
    w.Booked ∧ ∀ a, w.Fresh a → ((∃ w', w.call a = .ok w' ∧ w'.Booked) ↔ w.Fits a) := by
  have hgood : w.Kept := by
    apply h.invariant
    · refine ⟨[], fun _ => rfl, nofun, List.nodup_nil, List.nodup_nil, nofun, rfl, ?_⟩
      intro name v
      constructor
      · nofun
      · rintro ⟨x, hx, -⟩
        cases hx
    · rintro w a w' ⟨c, hc⟩ hfresh hfits hstep
      obtain ⟨w'', c', hres, hc'⟩ := DirWorld.call_good hc hfresh hfits
      obtain rfl := Except.ok.inj (hres.symm.trans hstep)
      exact ⟨c', hc'⟩
  obtain ⟨c, hc⟩ := hgood
  exact ⟨DirWorld.booked hc, fun a hfresh => DirWorld.call_booked_iff hc hfresh⟩

/-- There is memory for everything, and a node is put to an address. -/
def DirGrant.ample (p : ℕ) : DirGrant where
  list := true
  index := Storage.ample 0
  find := Storage.ample 0
  findNew := Storage.ample 0
  check := Storage.ample 0
  remove := Storage.ample 0
  dirent := true
  name := true
  insert := Storage.ample p
  read _ := Storage.ample 0

/-- An entry is added, renamed and added again. -/
theorem directory_booked_relinked :
    ∃ w, dirCalls.Reach DirWorld.Fits w ∧ w.told ⟨[97], by decide⟩ = some (7, false) ∧
      w.told ⟨[98], by decide⟩ = some (5, false) ∧ w.Booked := by
  have h₁ : dirCalls.Reach DirWorld.Fits _ :=
    .step (a := (.ample 10, .addDirent ⟨[97], by decide⟩ 5)) .init nofun nofun rfl
  have h₂ := h₁.next (.ample 20, .rename ⟨[97], by decide⟩ ⟨[98], by decide⟩)
      (fun _ _ _ hm _ hn => nomatch Option.some.inj hm ▸ hn) trivial rfl
  have h₃ := h₂.next (.ample 30, .addDirent ⟨[97], by decide⟩ 7)
      (fun _ _ _ hm _ hn => nomatch Option.some.inj hm ▸ hn) (fun _ _ => ⟨rfl, rfl, rfl⟩) rfl
  exact ⟨_, h₃, rfl, rfl, (directory_booked h₃).1⟩

/-- An entry is added and unlinked; it is added again without memory, and is not found. -/
theorem directory_not_booked :
    ∃ w, dirCalls.Reach (fun _ _ => True) w ∧ w.told ⟨[97], by decide⟩ = some (5, true) ∧
      (∃ d, w.dir.lookup (.ample 0) ⟨[97], by decide⟩ = .ok (d, .error .enoent)) ∧ ¬ w.Booked := by
  have h₁ : dirCalls.Reach (fun _ _ => True) _ :=
    .step (a := (.ample 10, .addDirent ⟨[97], by decide⟩ 5)) .init nofun trivial rfl
  have h₂ := h₁.next (.ample 20, .unlink ⟨[97], by decide⟩) nofun trivial rfl
  have h₃ :=
    h₂.next ({ DirGrant.ample 20 with dirent := false }, .addDirent ⟨[97], by decide⟩ 7)
      (fun _ _ _ hm _ hn => nomatch Option.some.inj hm ▸ hn) trivial rfl
  refine ⟨_, h₃, rfl, ⟨_, rfl⟩, ?_⟩
  intro hbooked
  obtain ⟨d, r, hlookup, flags, hr, -⟩ := hbooked.lookups (.ample 0) ⟨[97], by decide⟩
  obtain ⟨-, hmissing⟩ := Prod.mk.inj (Except.ok.inj hlookup)
  exact nomatch hr.symm.trans hmissing.symm

end Ovlfs
