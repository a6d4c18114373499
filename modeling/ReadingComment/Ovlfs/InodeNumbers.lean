import ReadingComment.Ovlfs.ListChain
import ReadingComment.Ovlfs.Storage

/-!
# Numbers of inodes

An inode gets its number from a count and is found by its place on the list. The
two agree because inodes are only put to the end of the list, and an index of the
list, whenever it is made, has the elements in the order of the list: nothing
sorts it.
-/

namespace Ovlfs

open Lib List

section Lists

variable {ε : Type} {m : Mem ε} {els : List ε}

/-- The list has these elements, in the order of its chain and of its index. -/
structure InOrder (m : Mem ε) (els : List ε) : Prop where
  chain : ∃ c, Linked m.heap.node m.list.firstElement c ∧ c.map Prod.snd = els ∧
    m.list.lastElement = prevOf none c
  length : m.list.numberOfElements = els.length
  index : m.list.isIndexed = true → m.list.indexMode = .flat ∧ m.list.elementList = some els

def Mem.hasIndex (m : Mem ε) (g : Grant ε) : Bool := m.list.isIndexed || g.make

namespace InOrder

theorem new (cmp search : Option (CompFunc ε)) : InOrder ⟨.unused, createList cmp search⟩ [] :=
  ⟨⟨[], rfl, rfl, rfl⟩, rfl, nofun⟩

theorem insertAtEnd (h : InOrder m els) {g : Grant ε} (hfresh : m.heap.node g.addr = none) (e : ε) :
    ∃ m', insertAtEnd m g e = .ok (m', if g.node = true then some e else none) ∧
      InOrder m' (if g.node = true then els ++ [e] else els) := by
  cases hg : g.node with
  | false =>
    refine ⟨m, ?_, h⟩
    rw [Ovlfs.insertAtEnd, hg]
    rfl
  | true =>
    obtain ⟨c, hc, hels, hlast⟩ := h.chain
    have hfree : ∀ x ∈ c, x.1 ≠ g.addr := by
      intro x hx heq
      have := hc.isSome hx
      rw [heq, hfresh] at this
      cases this
    -- what becomes of the index
    have happend : ∃ a mode, (m.list.appended g.addr).counted.appendToIndex g
          m.list.numberOfElements e = .ok ((m.list.appended g.addr).counted.reindexed a mode) ∧
        (mode ≠ .notIndexed → mode = .flat ∧ a = some (els ++ [e])) := by
      rw [KList.appendToIndex]
      split
      · rename_i hi
        obtain ⟨-, hlist⟩ := h.index hi
        rw [KList.growIndex]
        split
        · refine ⟨_, .flat, ?_, fun _ => ⟨rfl, rfl⟩⟩
          have hcopied : (m.list.appended g.addr).counted.copied g m.list.numberOfElements =
              .ok els := by
            rw [KList.copied, show (m.list.appended g.addr).counted.elementList = _ from hlist]
            simp [h.length]
          rw [hcopied]
          have hset : (els ++ List.replicate (m.list.numberOfElements + 1 - m.list.numberOfElements)
              g.junk).set (m.list.numberOfElements + 1 - 1) e = els ++ [e] := by
            simp [h.length]
          exact congrArg (fun a => Except.ok (KList.reindexed _ (some a) _)) hset
        · exact ⟨_, .notIndexed, rfl, fun hne => absurd rfl hne⟩
      · rename_i hi
        exact ⟨m.list.elementList, m.list.indexMode, rfl, fun hne => absurd (not_indexed hi) hne⟩
    obtain ⟨a, mode, happend, hmode⟩ := happend
    obtain ⟨node, hrun, hchain⟩ := insertAtEnd_eq hg hc hfree hlast happend
    refine ⟨_, hrun, ⟨_, hchain, ?_, ?_⟩, ?_, fun hi => hmode (isIndexed_iff.mp hi)⟩
    · simp [hels]
    · simp [prevOf, KList.appended, KList.counted, KList.reindexed]
    · simp [KList.appended, KList.counted, KList.reindexed, h.length]

theorem nthElement (h : InOrder m els) (g : Grant ε) {n : ℕ} (hn : 0 < n) :
    ∃ m', nthElement m g n = .ok (m', if m.hasIndex g = true then els[n - 1]? else none) ∧
      InOrder m' els := by
  obtain ⟨c, hc, hels, hlast⟩ := h.chain
  -- what becomes of the index
  have hcheck : ∃ a mode, m.list.checkIndex m.heap g = .ok (m.list.reindexed a mode) ∧
      ((m.list.reindexed a mode).isIndexed = m.hasIndex g) ∧
      (mode ≠ .notIndexed → mode = .flat ∧ a = some els) := by
    rw [KList.checkIndex, Mem.hasIndex]
    split
    · rename_i hi
      refine ⟨m.list.elementList, m.list.indexMode, rfl, ?_, fun _ => h.index hi⟩
      rw [hi, Bool.true_or]
      exact hi
    · rename_i hi
      split
      · rename_i hmake
        refine ⟨some els, .flat, ?_, by rw [hmake, Bool.or_true]; rfl, fun _ => ⟨rfl, rfl⟩⟩
        rw [h.length, ← hels, length_map, makeIndex_eq hc]
        rfl
      · rename_i hmake
        refine ⟨none, m.list.indexMode, rfl, ?_, fun hne => absurd (not_indexed hi) hne⟩
        rw [Bool.not_eq_true] at hi hmake
        rw [hi, hmake]
        exact hi
  obtain ⟨a, mode, hcheck, hindexed, hmode⟩ := hcheck
  refine ⟨{ m with list := m.list.reindexed a mode }, ?_, ⟨c, hc, hels, hlast⟩, h.length,
    fun hi => hmode (isIndexed_iff.mp hi)⟩
  rw [Ovlfs.nthElement, hcheck]
  change (if (m.list.reindexed a mode).isIndexed = true ∧ (n : ℤ) > 0 ∧
    (n : ℤ) ≤ m.list.numberOfElements then _ else _) = _
  rw [hindexed, h.length]
  by_cases hhas : m.hasIndex g = true
  · obtain ⟨-, rfl⟩ := hmode (isIndexed_iff.mp (hindexed.trans hhas))
    rw [if_pos hhas]
    by_cases hle : n ≤ els.length
    · rw [if_pos ⟨hhas, by omega, by omega⟩]
      have hget : els[((n : ℤ) - 1).toNat]? = some (els[n - 1]) := by
        rw [show ((n : ℤ) - 1).toNat = n - 1 by omega]
        exact getElem?_eq_getElem _
      change (readArr els[((n : ℤ) - 1).toNat]? >>= fun x => _) = _
      rw [hget, getElem?_eq_getElem]
      rfl
    · rw [if_neg fun hand => hle (by omega), getElem?_eq_none (by omega)]
      rfl
  · rw [if_neg hhas, if_neg fun hand => hhas hand.1]
    rfl

end InOrder

end Lists

namespace Storage

variable {compOvlIno : CompFunc ℕ} {s s' : Storage} {added : List ℕ}

def noteAdded (compOvlIno : CompFunc ℕ) (s : Storage) (a : Call) (added : List ℕ) : List ℕ :=
  match a with
  | .addInode g name =>
    match s.addInode compOvlIno g name with
    | .ok (_, some p) => added ++ [p]
    | _ => added
  | _ => added

def addedSystem (compOvlIno : CompFunc ℕ) : Lib.System (Storage × List ℕ) Call Fault :=
  (system compOvlIno).record [] (noteAdded compOvlIno)

def inodeCount (s : Storage) : ℕ := s.inodes.elim 0 fun m => m.list.numberOfElements

def hasIndex (s : Storage) (g : Grant ℕ) : Bool := s.inodes.any (·.hasIndex g)

/-- **The numbering invariant**: the list has the inodes that were added, and their numbers are
their places. -/
structure Numbered (s : Storage) (added : List ℕ) : Prop where
  list : ∀ m, s.inodes = some m → InOrder m added
  empty : s.inodes = none → added = []
  ino : ∀ n p, added[n]? = some p → (s.inode p).ino = n + 1
  lt : ∀ p ∈ added, p < s.nextInode

/-- The list of inodes and their numbers are the same. -/
structure SameInodes (s s' : Storage) : Prop where
  inodes : s'.inodes = s.inodes
  nextInode : s'.nextInode = s.nextInode
  ino : ∀ p, (s'.inode p).ino = (s.inode p).ino

theorem SameInodes.trans {s₁ s₂ s₃ : Storage} (h : SameInodes s₁ s₂) (h' : SameInodes s₂ s₃) :
    SameInodes s₁ s₃ :=
  ⟨h'.inodes.trans h.inodes, h'.nextInode.trans h.nextInode, fun p => (h'.ino p).trans (h.ino p)⟩

variable {dev : Dev} {g : Grant InoMap} {r : Except Errno Unit}

theorem checkMapping_same {side : Side} {ino : Inum} {ovlIno : ℕ} {found : Bool}
    (h : s.checkMapping side g dev ino ovlIno = .ok (s', found)) :
    SameInodes s s' := by
  rw [checkMapping] at h
  split at h
  · cases h
    exact ⟨rfl, rfl, fun _ => rfl⟩
  · obtain ⟨⟨m, mapping⟩, -, h⟩ := bind_eq_ok h
    cases mapping with
    | none | some mapping =>
      cases h
      exact ⟨rfl, rfl, fun _ => rfl⟩

theorem putMapping_same {side : Side} {m : Mem InoMap} {mapping : InoMap}
    (h : s.putMapping side m g mapping = .ok (s', r)) : SameInodes s s' := by
  obtain ⟨⟨m', inserted⟩, -, h⟩ := bind_eq_ok h
  cases inserted with
  | none | some mapping =>
    cases h
    exact ⟨rfl, rfl, fun _ => rfl⟩

theorem insertMapping_same {side : Side} {g : MapGrant} {inum : Inum} {ovlIno : ℕ}
    (h : s.insertMapping side g dev inum ovlIno = .ok (s', r)) :
    SameInodes s s' := by
  rw [insertMapping] at h
  split at h
  · have hbegin : SameInodes s { s with
        ovlIno := Function.update s.ovlIno s.nextMap ovlIno
        nextMap := s.nextMap + 1 } := ⟨rfl, rfl, fun _ => rfl⟩
    simp only at h
    split at h
    · exact hbegin.trans (putMapping_same h)
    · split at h
      · exact hbegin.trans (putMapping_same h)
      · cases h
        exact hbegin
  · cases h
    exact ⟨rfl, rfl, fun _ => rfl⟩

theorem setReal_same (side : Side) (p : ℕ) (dev : Dev) (inum : Inum) :
    SameInodes s (s.setReal side p dev inum) := by
  refine ⟨rfl, rfl, fun q => ?_⟩
  by_cases hq : q = p
  · subst hq
    cases side <;> simp [setReal]
  · exact congrArg OvlInode.ino (Function.update_of_ne hq ..)

theorem inodeSetOther_same {g : MapGrant} {p : ℕ} {inum : Inum} {otherFs : Char}
    (h : s.inodeSetOther g p dev inum otherFs = .ok (s', r)) :
    SameInodes s s' := by
  rw [inodeSetOther] at h
  split at h
  · cases h
    exact ⟨rfl, rfl, fun _ => rfl⟩
  · obtain ⟨⟨s₁, found⟩, hcheck, h⟩ := bind_eq_ok h
    have hsame := (setReal_same _ p dev inum).trans (checkMapping_same hcheck)
    cases found with
    | true =>
      cases h
      exact hsame
    | false => exact hsame.trans (insertMapping_same h)

theorem mapLookup_same {inum : Inum} {which : Char} {r : Except Errno ℕ}
    (h : s.mapLookup g dev inum which = .ok (s', r)) : SameInodes s s' := by
  rw [mapLookup] at h
  split at h
  · cases h
    exact ⟨rfl, rfl, fun _ => rfl⟩
  · split at h
    · cases h
      exact ⟨rfl, rfl, fun _ => rfl⟩
    · obtain ⟨⟨m, mapping⟩, -, h⟩ := bind_eq_ok h
      cases h
      exact ⟨rfl, rfl, fun _ => rfl⟩

namespace Numbered

theorem init : Numbered Storage.init [] := ⟨nofun, fun _ => rfl, nofun, nofun⟩

section

variable (h : Numbered s added)

include h

theorem same (hsame : SameInodes s s') : Numbered s' added where
  list m hm := h.list m (hsame.inodes ▸ hm)
  empty hnone := h.empty (hsame.inodes ▸ hnone)
  ino n p hp := (hsame.ino p).trans (h.ino n p hp)
  lt p hp := hsame.nextInode ▸ h.lt p hp

/-- **Looking for an inode** finds the one at the place of its number. -/
theorem getIno (g : Grant ℕ) (n : ℕ) :
    ∃ s', s.getIno g n =
        .ok (s', if n ≠ 0 ∧ s.hasIndex g = true then added[n - 1]? else none) ∧
      Numbered s' added := by
  rw [Storage.getIno]
  by_cases hn : n = 0
  · exact ⟨s, by rw [if_pos hn, if_neg fun hand => hand.1 hn], h⟩
  · rw [if_neg hn, hasIndex]
    cases hm : s.inodes with
    | none => exact ⟨s, by simp, h⟩
    | some m =>
      obtain ⟨m', hrun, horder⟩ := (h.list m hm).nthElement g (Nat.pos_of_ne_zero hn)
      refine ⟨{ s with inodes := some m' }, ?_, ?_, nofun, h.ino, h.lt⟩
      · simp only [hrun, Option.any_some, ne_eq, hn, not_false_eq_true, true_and]
        rfl
      · intro m₁ hm₁
        cases hm₁
        exact horder

theorem addToList {m : Mem ℕ} (horder : InOrder m added) {g : AddGrant}
    (hnode : m.heap.node g.insert.addr = none) (name : Option (List Char)) :
    ∃ s' r, s.addToList m g name = .ok (s', r) ∧ Numbered s' (added ++ r.toList) := by
  have hkept : ∀ m', InOrder m' added →
      Numbered { s with inodes := some m' } (added ++ (none : Option ℕ).toList) := by
    intro m' horder'
    rw [Option.toList_none, append_nil]
    refine ⟨fun m₁ hm₁ => ?_, nofun, h.ino, h.lt⟩
    cases hm₁
    exact horder'
  rw [Storage.addToList]
  split
  · obtain ⟨m', hrun, horder'⟩ := horder.insertAtEnd hnode s.nextInode
    simp only [hrun]
    split at horder'
    · rename_i hg
      rw [if_pos hg]
      refine ⟨_, some s.nextInode, rfl, ?_, nofun, ?_, ?_⟩
      · intro m₁ hm₁
        cases hm₁
        exact horder'
      · intro n p hp
        have hlen := horder.length
        rw [Option.toList_some, getElem?_append] at hp
        split at hp
        · have hne : p ≠ s.nextInode := Nat.ne_of_lt (h.lt p (mem_of_getElem? hp))
          simpa [hne] using h.ino n p hp
        · obtain ⟨hn, rfl⟩ : n - added.length = 0 ∧ s.nextInode = p := by
            simpa [getElem?_singleton] using hp
          simp only [Function.update_self, newInode]
          omega
      · intro p hp
        rcases mem_append.mp hp with hp | hp
        · exact Nat.lt_succ_of_lt (h.lt p hp)
        · obtain rfl : p = s.nextInode := by simpa using hp
          exact Nat.lt_succ_self _
    · rename_i hg
      rw [if_neg hg]
      exact ⟨_, none, rfl, hkept m' horder'⟩
  · exact ⟨_, none, rfl, hkept m horder⟩

theorem addInode {g : AddGrant} {name : Option (List Char)} (hfresh : s.Fresh (.addInode g name)) :
    ∃ s' r, s.addInode compOvlIno g name = .ok (s', r) ∧ Numbered s' (added ++ r.toList) := by
  rw [Storage.addInode]
  cases hm : s.inodes with
  | some m => exact h.addToList (h.list m hm) (hfresh m hm) name
  | none =>
    simp only
    split
    · have hempty : InOrder (createInodeList compOvlIno) added := by
        rw [h.empty hm]
        exact .new _ _
      exact h.addToList hempty rfl name
    · refine ⟨s, none, rfl, ?_⟩
      rw [Option.toList_none, append_nil]
      exact h

/-- **Step lemma**. -/
theorem next {a : Call} (hfresh : s.Fresh a) (hstep : s.call compOvlIno a = .ok s') :
    Numbered s' (s.noteAdded compOvlIno a added) := by
  cases a with
  | addInode g name =>
    obtain ⟨s₁, r, hrun, hnext⟩ : ∃ s' r, s.addInode compOvlIno g name = .ok (s', r) ∧
        Numbered s' (added ++ r.toList) := h.addInode hfresh
    obtain ⟨x, hx, heq⟩ := bind_eq_ok hstep
    obtain rfl := Except.ok.inj (hrun.symm.trans hx)
    cases heq
    rw [noteAdded, hrun]
    cases r with
    | none => simpa using hnext
    | some p => exact hnext
  | getIno g n =>
    obtain ⟨s₁, hrun, hnext⟩ := h.getIno g n
    obtain ⟨x, hx, heq⟩ := bind_eq_ok hstep
    obtain rfl := Except.ok.inj (hrun.symm.trans hx)
    cases heq
    exact hnext
  | mapInode g inum1 dev2 inum2 which =>
    obtain ⟨⟨s₁, r⟩, hx, heq⟩ := bind_eq_ok hstep
    cases heq
    obtain ⟨⟨s₂, ino⟩, hget, hx⟩ := bind_eq_ok hx
    obtain ⟨s₃, hrun, hnext⟩ := h.getIno g.get inum1
    obtain ⟨rfl, -⟩ := Prod.mk.inj (Except.ok.inj (hrun.symm.trans hget))
    cases ino with
    | none =>
      cases hx
      exact hnext
    | some p => exact hnext.same (inodeSetOther_same hx)
  | mapLookup g dev inum which =>
    obtain ⟨⟨s₁, r⟩, hx, heq⟩ := bind_eq_ok hstep
    cases heq
    exact h.same (mapLookup_same hx)

end

end Numbered

theorem reach_numbered (h : (addedSystem compOvlIno).Reach (fun _ _ => True) (s, added)) :
    Numbered s added :=
  Lib.System.Reach.record_invariant (S := system compOvlIno) (fun _ _ => True) Numbered .init
    (fun _ _ _ _ hinv hfresh _ hstep => hinv.next hfresh hstep) h

/-- **Inode numbers**: in every run, the inodes that were added are counted, and the number `n`
between 1 and their count belongs to the `n`-th of them and to no other one; `ovlfs_get_ino` finds
it if the list has an index or there is memory for one, and nothing otherwise; and it finds nothing
for any other number. -/
theorem get_ino_added (h : (addedSystem compOvlIno).Reach (fun _ _ => True) (s, added)) :
    s.inodeCount = added.length ∧
    (∀ g n, 1 ≤ n → n ≤ s.inodeCount → s.hasIndex g = true →
      ∃ s' p, s.getIno g n = .ok (s', some p) ∧ added[n - 1]? = some p ∧ (s.inode p).ino = n ∧
        ∀ q ∈ added, (s.inode q).ino = n → q = p) ∧
    ∀ g n, n = 0 ∨ s.inodeCount < n ∨ s.hasIndex g = false →
      ∃ s', s.getIno g n = .ok (s', none) := by
  have hinv := reach_numbered h
  have hcount : s.inodeCount = added.length := by
    rw [inodeCount]
    cases hm : s.inodes with
    | none => rw [hinv.empty hm]; rfl
    | some m => exact (hinv.list m hm).length
  refine ⟨hcount, fun g n hn hle hindex => ?_, fun g n hn => ?_⟩
  · obtain ⟨s', hrun, -⟩ := hinv.getIno g n
    have hlt : n - 1 < added.length := by omega
    have hget : added[n - 1]? = some added[n - 1] := List.getElem?_eq_getElem hlt
    rw [if_pos ⟨by omega, hindex⟩, hget] at hrun
    have hino : (s.inode added[n - 1]).ino = n := by
      rw [hinv.ino _ _ hget]
      omega
    refine ⟨s', _, hrun, hget, hino, fun q hq hqn => ?_⟩
    obtain ⟨i, hi⟩ := List.mem_iff_getElem?.mp hq
    have hi' := hinv.ino i q hi
    obtain rfl : i = n - 1 := by omega
    exact Option.some.inj (hi.symm.trans hget)
  · obtain ⟨s', hrun, -⟩ := hinv.getIno g n
    refine ⟨s', hrun.trans (congrArg (fun r => Except.ok (s', r)) ?_)⟩
    split
    · rename_i hand
      rcases hn with rfl | hn | hn
      · exact absurd rfl hand.1
      · exact List.getElem?_eq_none (by omega)
      · exact absurd hand.2 (by rw [hn]; nofun)
    · rfl

/-- There is memory for everything, and nodes are put to an address. -/
def ample {ε : Type} [Inhabited ε] (p : ℕ) : Grant ε where
  node := true
  addr := p
  table _ := true
  grow := true
  make := true
  slot := true
  info := true
  junk := default
  reused _ := none
  signal := false

/-- A root directory and a second inode are added. -/
theorem get_ino_added_two : ∃ s added,
    (addedSystem fun _ _ => 0).Reach (fun _ _ => True) (s, added) ∧ s.inodeCount = 2 ∧
      ∃ s' p, s.getIno (ample 0) 2 = .ok (s', some p) ∧ (s.inode p).ino = 2 := by
  have h₁ : (addedSystem fun _ _ => 0).Reach (fun _ _ => True) _ :=
    .step (a := .addInode ⟨true, true, true, ample 10⟩ none) .init nofun trivial rfl
  have h₂ := h₁.next (.addInode ⟨true, true, true, ample 20⟩ (some ['a']))
      (fun _ hm => Option.some.inj hm ▸ rfl) trivial rfl
  obtain ⟨hcount, hfound, -⟩ := get_ino_added h₂
  obtain ⟨s', p, hrun, -, hino, -⟩ := hfound (ample 0) 2 (by decide) (Nat.le_of_eq hcount.symm) rfl
  exact ⟨_, _, h₂, hcount, s', p, hrun, hino⟩

/-- The list of inodes has no index yet, and there is no memory for one: the first inode is not
found. -/
theorem get_ino_without_memory : ∃ s added,
    (addedSystem fun _ _ => 0).Reach (fun _ _ => True) (s, added) ∧ s.inodeCount = 1 ∧
      ∃ g s', s.getIno g 1 = .ok (s', none) := by
  have h₁ : (addedSystem fun _ _ => 0).Reach (fun _ _ => True) _ :=
    .step (a := .addInode ⟨true, true, true, ample 10⟩ none) .init nofun trivial rfl
  exact ⟨_, _, h₁, rfl, { ample 0 with make := false }, _, rfl⟩

end Storage

end Ovlfs
