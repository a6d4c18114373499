import ReadingComment.Ovlfs.ListChain

/-!
# Runs of operations on a list

A list is a sequence of elements (`Call.content` says what a call makes of it), and
over a whole run the chain of nodes holds this sequence, the count is its length
and the last node is known (`World.Chained`), as long as

* nothing is inserted at the front of an empty list: `last_element` would stay
  `NULL`;
* `insert_many` is called with at least one element, and the elements of a call with
  several are never removed: their nodes are one block of memory;
* `clear_list` does not wait for the semaphore that it holds, and the nodes that it
  has freed still hold their links when these are read.
-/

namespace Ovlfs

open Function List Ordered

variable {ε : Type}

/-! ## Calls -/

section Calls

variable [DecidableEq ε] [Inhabited ε]

/-- A call of an operation. -/
inductive Call (ε : Type) where
  | insertIntoList (ptr1 : ε)
  | insertMany (els : List ε)
  | insertIntoListSorted (ptr1 : ε)
  | insertAtEnd (ptr1 : ε)
  | removeElement (searchVal : ε)
  | removeNth (nth : ℤ)
  | clearList
  | setListAutolock (doLocking : Bool)
  | addIndex (cb : CompFunc ε) (lazyUpd : Bool)
  | dropIndex (id : ℤ)
  | readIndex (id nth : ℤ)
  | searchIndex (id : ℤ) (data : ε)
  | changeIndexSort (id : ℤ) (newCb : CompFunc ε)

def Call.run (m : Mem ε) (g : Grant ε) : Call ε → Except Fault (Mem ε)
  | .insertIntoList e => Prod.fst <$> Ovlfs.insertIntoList m g e
  | .insertMany es => Prod.fst <$> Ovlfs.insertMany m g es
  | .insertIntoListSorted e => Prod.fst <$> Ovlfs.insertIntoListSorted m g e
  | .insertAtEnd e => Prod.fst <$> Ovlfs.insertAtEnd m g e
  | .removeElement v => Prod.fst <$> Ovlfs.removeElement m g v
  | .removeNth n => Prod.fst <$> Ovlfs.removeNth m g n
  | .clearList => Ovlfs.clearList m g
  | .setListAutolock b => .ok { m with list := Ovlfs.setListAutolock m.list b }
  | .addIndex cb lazyUpd => Prod.fst <$> Ovlfs.addIndex m g cb lazyUpd
  | .dropIndex id => .ok (Ovlfs.dropIndex m id).1
  | .readIndex id nth => Prod.fst <$> Ovlfs.readIndex m g id nth
  | .searchIndex id data => Prod.fst <$> Ovlfs.searchIndex m g id data
  | .changeIndexSort id cb => Prod.fst <$> Ovlfs.changeIndexSort m g id cb

/-- An element, and whether its node is a block of memory of its own. -/
abbrev Item (ε : Type) : Type := ε × Bool

def Call.content (search : Option (CompFunc ε)) (g : Grant ε) (c : List (Item ε)) :
    Call ε → List (Item ε)
  | .insertIntoList e => if g.node then (e, true) :: c else c
  | .insertMany es => if g.node then es.map (fun e => (e, es.length == 1)) ++ c else c
  | .insertIntoListSorted e => if g.node then (e, true) :: c else c
  | .insertAtEnd e => if g.node then c ++ [(e, true)] else c
  | .removeElement v =>
    match search with
    | some f => c.eraseP fun x => f v x.1 == 0
    | none => c
  | .removeNth n => if n < 1 then c else c.eraseIdx (n.toNat - 1)
  | .clearList => []
  | _ => c

/-- The memory, and the sequence of the elements that were inserted and not removed. -/
structure World (ε : Type) where
  mem : Mem ε
  content : List (Item ε)

def World.call (w : World ε) (a : Grant ε × Call ε) : Except Fault (World ε) := do
  let m ← a.2.run w.mem a.1
  return ⟨m, a.2.content w.mem.list.searchFunc a.1 w.content⟩

def Call.nodes : Call ε → ℕ
  | .insertIntoList _ => 1
  | .insertMany es => es.length
  | .insertIntoListSorted _ => 1
  | .insertAtEnd _ => 1
  | _ => 0

/-- `kmalloc` gives memory that is not in use. -/
def World.Fresh (w : World ε) (a : Grant ε × Call ε) : Prop :=
  ∀ q, a.1.addr ≤ q → q < a.1.addr + a.2.nodes → w.mem.heap.node q = none

def Call.onChain : Call ε → Bool
  | .addIndex .. => false
  | .dropIndex .. => false
  | .readIndex .. => false
  | .searchIndex .. => false
  | .changeIndexSort .. => false
  | _ => true

/-- Operations on a list that `create_list` has made. -/
def chainCalls (heap : Heap ε) (cmp search : Option (CompFunc ε)) :
    Lib.System (World ε) (Grant ε × Call ε) Fault where
  init := ⟨⟨heap, createList cmp search⟩, []⟩
  Allowed w a := w.Fresh a ∧ a.2.onChain = true
  step := World.call

/-- **The list is a chain**: it is finite and has as many nodes as are counted, its elements are
those that were inserted and not removed, and `last_element` is its last node, `NULL` when the list
is empty. -/
def World.Chained (w : World ε) : Prop :=
  ∃ c, Linked w.mem.heap.node w.mem.list.firstElement c ∧
    w.mem.list.numberOfElements = c.length ∧ c.map Prod.snd = w.content.map Prod.fst ∧
    w.mem.list.lastElement = c.getLast?.map Prod.fst

/-- The search of `remove_element` can be made. -/
def KList.Searches (l : KList ε) : Prop := l.firstElement = none ∨ l.searchFunc ≠ none

def World.FreesBlocks (w : World ε) : Call ε → Prop
  | .removeElement v => ∀ f, w.mem.list.searchFunc = some f →
      ∀ x, w.content.find? (fun x => f v x.1 == 0) = some x → x.2 = true
  | .removeNth n => ∀ x, 1 ≤ n → w.content[n.toNat - 1]? = some x → x.2 = true
  | _ => True

/-- `clear_list` comes to its end: a signal ends the wait for the semaphore that it holds, or it
takes none, the nodes are blocks of their own and their links are read before they are
overwritten. -/
def World.Clears (w : World ε) (g : Grant ε) : Prop :=
  (w.mem.list.autoLock = true ∧ g.signal = true) ∨
  (w.mem.list.autoLock = false ∧ (∀ x ∈ w.content, x.2 = true) ∧
    ∀ p, w.mem.heap.node p ≠ none → g.reused p = none)

def World.Fits (w : World ε) (a : Grant ε × Call ε) : Prop :=
  match a.2 with
  | .insertIntoList _ => a.1.node = true → w.mem.list.firstElement ≠ none
  | .insertIntoListSorted _ => a.1.node = true → w.mem.list.firstElement ≠ none
  | .insertMany es => a.1.node = true →
      w.mem.list.firstElement ≠ none ∧ es ≠ [] ∧ es.length < 2 ^ 29
  | .removeElement v => w.mem.list.Searches ∧ w.FreesBlocks (.removeElement v)
  | .removeNth n => w.FreesBlocks (.removeNth n)
  | .clearList => w.Clears a.1
  | _ => True

end Calls

/-! ## The nodes and the sequence -/

/-- A node and an item: the element is the same, and a node of its own is a block of one. -/
def Matches (block : ℕ → ℕ) (x : ℕ × ε) (y : Item ε) : Prop :=
  x.2 = y.1 ∧ (y.2 = true → block x.1 = 1)

/-- The nodes of the list hold the sequence. -/
structure World.Holds (w : World ε) (c : List (ℕ × ε)) : Prop where
  linked : Linked w.mem.heap.node w.mem.list.firstElement c
  count : w.mem.list.numberOfElements = c.length
  items : List.Forall₂ (Matches w.mem.heap.block) c w.content
  primary : Primary w.mem.list

theorem forall₂_mono_of_mem {α β : Type} {R S : α → β → Prop} {l : List α} {u : List β}
    (h : List.Forall₂ R l u) (hRS : ∀ x ∈ l, ∀ y, R x y → S x y) : List.Forall₂ S l u := by
  have h' := (forall₂_and_left l u).mpr ⟨hRS, h⟩
  exact h'.imp fun x y hxy => hxy.1 y hxy.2

theorem forall₂_split {α β : Type} {R : α → β → Prop} {a b : List α} {x : α} {u : List β}
    (h : List.Forall₂ R (a ++ x :: b) u) :
    ∃ a' y b', u = a' ++ y :: b' ∧ List.Forall₂ R a a' ∧ R x y ∧ List.Forall₂ R b b' := by
  induction a generalizing u with
  | nil =>
    obtain ⟨y, b', hxy, hb, rfl⟩ := forall₂_cons_left_iff.mp h
    exact ⟨[], y, b', rfl, .nil, hxy, hb⟩
  | cons z a ih =>
    obtain ⟨y, u', hzy, hu, rfl⟩ := forall₂_cons_left_iff.mp h
    obtain ⟨a', y', b', rfl, ha, hxy, hb⟩ := ih hu
    exact ⟨y :: a', y', b', rfl, .cons hzy ha, hxy, hb⟩

namespace World.Holds

variable {w : World ε} {c : List (ℕ × ε)}

theorem elements (h : w.Holds c) : c.map Prod.snd = w.content.map Prod.fst := by
  rw [← forall₂_eq_eq_eq, forall₂_map_left_iff, forall₂_map_right_iff]
  exact h.items.imp fun _ _ hxy => hxy.1

theorem fresh (h : w.Holds c) {a : Grant ε × Call ε} (hf : w.Fresh a) :
    ∀ x ∈ c, x.1 < a.1.addr ∨ a.1.addr + a.2.nodes ≤ x.1 := by
  intro x hx
  by_contra hin
  have hnone := hf x.1 (by omega) (by omega)
  have hsome := h.linked.isSome hx
  rw [hnone] at hsome
  cases hsome

theorem items_update (h : w.Holds c) {p k : ℕ} (hp : ∀ x ∈ c, x.1 ≠ p) :
    List.Forall₂ (Matches (update w.mem.heap.block p k)) c w.content := by
  apply forall₂_mono_of_mem h.items
  rintro x hx y ⟨hxy, hb⟩
  refine ⟨hxy, fun hy => ?_⟩
  rw [update_of_ne (hp x hx)]
  exact hb hy

variable {l : KList ε}

section

variable (h : w.Holds c)

include h

theorem push {p : ℕ} {e : ε} (hfree : ∀ x ∈ c, x.1 ≠ p) (hfirst : l.firstElement = some p)
    (hcount : l.numberOfElements = w.mem.list.numberOfElements + 1) (hp : Primary l) :
    World.Holds ⟨⟨w.mem.heap.alloc p ⟨e, w.mem.list.firstElement⟩, l⟩, (e, true) :: w.content⟩
      ((p, e) :: c) := by
  refine ⟨?_, ?_, ?_, hp⟩
  · rw [hfirst]
    exact h.linked.cons hfree
  · rw [hcount, h.count, length_cons]
  · exact .cons ⟨rfl, fun _ => update_self _ _ _⟩ (h.items_update hfree)

theorem append {p : ℕ} {e : ε} (hfree : ∀ x ∈ c, x.1 ≠ p) {node : ℕ → Option (Node ε)}
    (hl : Linked node l.firstElement (c ++ [(p, e)]))
    (hcount : l.numberOfElements = w.mem.list.numberOfElements + 1) (hp : Primary l) :
    World.Holds ⟨⟨⟨node, update w.mem.heap.block p 1⟩, l⟩, w.content ++ [(e, true)]⟩
      (c ++ [(p, e)]) := by
  refine ⟨hl, ?_, ?_, hp⟩
  · rw [hcount, h.count, length_append, length_singleton]
  · refine rel_append (h.items_update hfree) (.cons ⟨rfl, fun _ => ?_⟩ .nil)
    exact update_self _ _ _

theorem pushMany {p : ℕ} {es : List ε} (hes : es ≠ [])
    (hfree : ∀ x ∈ c, x.1 < p ∨ p + es.length ≤ x.1) (hfirst : l.firstElement = some p)
    (hcount : l.numberOfElements = w.mem.list.numberOfElements + es.length) (hp : Primary l) :
    World.Holds ⟨⟨w.mem.heap.allocMany p w.mem.list.firstElement es, l⟩,
      es.map (fun e => (e, es.length == 1)) ++ w.content⟩ (placed p es ++ c) := by
  refine ⟨?_, ?_, ?_, hp⟩
  · rw [hfirst]
    exact h.linked.writeChain hes hfree
  · rw [hcount, h.count, length_append, length_placed]
    omega
  · apply rel_append
    · -- only a block with one node has nodes of their own
      cases es with
      | nil => exact absurd rfl hes
      | cons e es =>
        cases es with
        | nil => exact .cons ⟨rfl, fun _ => update_self _ _ _⟩ .nil
        | cons e' es =>
          have hmany : ∀ {q : ℕ} {us : List ε} {block : ℕ → ℕ},
              List.Forall₂ (Matches block) (placed q us) (us.map fun e => (e, false)) := by
            intro q us block
            induction us generalizing q with
            | nil => exact .nil
            | cons u us ih => exact .cons ⟨rfl, fun h => Bool.noConfusion h⟩ ih
          exact hmany
    · apply h.items_update
      intro x hx heq
      have := hfree x hx
      have := length_pos_of_ne_nil hes
      omega

theorem split {a b : List (ℕ × ε)} {q : ℕ} {e : ε} (hc : c = a ++ (q, e) :: b) :
    ∃ a' y b', w.content = a' ++ y :: b' ∧ List.Forall₂ (Matches w.mem.heap.block) a a' ∧
      Matches w.mem.heap.block (q, e) y ∧ List.Forall₂ (Matches w.mem.heap.block) b b' := by
  apply forall₂_split
  rw [← hc]
  exact h.items

theorem exists_item {x : ℕ × ε} (hx : x ∈ c) :
    ∃ y ∈ w.content, Matches w.mem.heap.block x y := by
  obtain ⟨a, b, hc⟩ := append_of_mem hx
  obtain ⟨a', y, b', hcontent, -, hy, -⟩ := h.split hc
  refine ⟨y, ?_, hy⟩
  rw [hcontent]
  exact mem_append_right _ (mem_cons_self ..)

theorem remove {a b : List (ℕ × ε)} {q : ℕ} {e : ε} (hc : c = a ++ (q, e) :: b)
    {a' b' : List (Item ε)} (ha : List.Forall₂ (Matches w.mem.heap.block) a a')
    (hb : List.Forall₂ (Matches w.mem.heap.block) b b') {node : ℕ → Option (Node ε)}
    (hl : Linked node l.firstElement (a ++ b))
    (hcount : l.numberOfElements = w.mem.list.numberOfElements - 1) (hp : Primary l) :
    World.Holds ⟨⟨⟨node, update w.mem.heap.block q 0⟩, l⟩, a' ++ b'⟩ (a ++ b) := by
  refine ⟨hl, ?_, ?_, hp⟩
  · rw [hcount, h.count, hc]
    simp only [length_append, length_cons]
    omega
  · have hne : ∀ x ∈ a ++ b, x.1 ≠ q := by
      intro x hx heq
      have hnodup := h.linked.nodup
      rw [hc, map_append, map_cons, perm_middle.nodup_iff, nodup_cons] at hnodup
      apply hnodup.1
      rw [← map_append]
      exact mem_map.mpr ⟨x, hx, heq⟩
    apply forall₂_mono_of_mem (rel_append ha hb)
    rintro x hx y ⟨hxy, hblock⟩
    exact ⟨hxy, fun hy => (update_of_ne (hne x hx) _ _).trans (hblock hy)⟩

end

end World.Holds

theorem primary_shrunk (l : KList ε) (first last : Option ℕ) (is : List (Option (Index ε))) :
    Primary (l.shrunk first last is) := primary_of_not_indexed rfl

/-! ## What a call does -/

def KList.countedBy (l : KList ε) (k : ℕ) : KList ε :=
  { l with numberOfElements := l.numberOfElements + k }

theorem indexInsertMany_eq {l : KList ε} (h : l.indexes = []) (es : List ε) :
    l.indexInsertMany es = .ok (l.countedBy es.length) := by
  induction es generalizing l with
  | nil => rfl
  | cons e es ih =>
    have hrest := ih (l := l.counted) h
    rw [KList.indexInsertMany, h, length_cons]
    show KList.indexInsertMany { l.counted with indexes := [] } es = _
    rw [← h]
    refine hrest.trans (congrArg Except.ok ?_)
    rw [KList.countedBy, KList.countedBy, KList.counted]
    simp only [Nat.add_assoc, Nat.add_comm 1]

theorem growMany_spec {l : KList ε} (h : Primary l) (g : Grant ε) {es : List ε} (hes : es ≠ []) :
    Reindexes (l.countedBy es.length)
      ((l.countedBy es.length).growMany g l.numberOfElements es) := by
  have hpos := length_pos_of_ne_nil hes
  rw [KList.growMany]
  split
  · rename_i hi
    apply growIndex_spec (l := l.countedBy es.length) h hi (Nat.lt_add_of_pos_right hpos)
    intro a ha
    rw [length_append, length_drop, ha]
    show es.length + (l.numberOfElements + es.length - es.length) = l.numberOfElements + es.length
    omega
  · exact cleanupIndex_spec _

theorem World.Holds.fresh_one {w : World ε} {c : List (ℕ × ε)} (h : w.Holds c)
    {a : Grant ε × Call ε} (hf : w.Fresh a)
    (hone : a.2.nodes = 1) : ∀ x ∈ c, x.1 ≠ a.1.addr := by
  intro x hx
  have := h.fresh hf x hx
  omega

theorem items_not {search : ε → ℤ} {block : ℕ → ℕ} {a : List (ℕ × ε)} {a' : List (Item ε)}
    (ha : List.Forall₂ (Matches block) a a') (hall : ∀ x ∈ a, search x.2 ≠ 0) :
    ∀ y ∈ a', ¬ (search y.1 == 0) = true := by
  intro y hy hy0
  have hel : a.map Prod.snd = a'.map Prod.fst := by
    rw [← forall₂_eq_eq_eq, forall₂_map_left_iff, forall₂_map_right_iff]
    exact ha.imp fun _ _ hxy => hxy.1
  have hy' : y.1 ∈ a.map Prod.snd := hel ▸ mem_map_of_mem hy
  obtain ⟨x, hx, hxy⟩ := mem_map.mp hy'
  apply hall x hx
  rw [hxy]
  exact eq_of_beq hy0

section Step

variable [DecidableEq ε] [Inhabited ε] {w w' : World ε} {c : List (ℕ × ε)} {g : Grant ε}

def Call.atFront : Call ε → Bool
  | .insertIntoList _ => true
  | .insertIntoListSorted _ => true
  | _ => false

/-- What calls that are not about alternate indexes do to the nodes, to the last node that the list
knows and to its indexes. -/
inductive Effect (w : World ε) (c : List (ℕ × ε)) (a : Grant ε × Call ε) :
    World ε → List (ℕ × ε) → Prop
  | keep {w' : World ε} : w'.mem.list.lastElement = w.mem.list.lastElement →
    w'.mem.list.indexes = w.mem.list.indexes → Effect w c a w' c
  | push {w' : World ε} (p : ℕ) (e : ε) : a.2.atFront = true → a.1.node = true →
    insertIndexes w.mem.list.numberOfElements a.1 e w.mem.list.indexes =
      .ok w'.mem.list.indexes →
    w'.mem.list.lastElement = w.mem.list.lastElement → Effect w c a w' ((p, e) :: c)
  | append {w' : World ε} (p : ℕ) (e : ε) : a.2 = .insertAtEnd e → a.1.node = true →
    w'.mem.list.lastElement = some p → w'.mem.list.indexes = w.mem.list.indexes →
    Effect w c a w' (c ++ [(p, e)])
  | remove {w' : World ε} (c₁ c₂ : List (ℕ × ε)) (q : ℕ) (e : ε) : c = c₁ ++ (q, e) :: c₂ →
    deleteIndexes w.mem.list.numberOfElements a.1 e w.mem.list.indexes =
      .ok w'.mem.list.indexes →
    w'.mem.list.lastElement =
      (if w.mem.list.lastElement = some q then prevOf none c₁ else w.mem.list.lastElement) →
    Effect w c a w' (c₁ ++ c₂)
  | clear {w' : World ε} : a.2 = .clearList → w'.mem.list.lastElement = none →
    w'.mem.list.indexes = w.mem.list.indexes → Effect w c a w' []

/-- The alternate indexes can take an element and lose one of those that are there. -/
structure World.IndexesRun (w : World ε) (c : List (ℕ × ε)) (g : Grant ε) : Prop where
  insert : ∀ e, ∃ is, insertIndexes w.mem.list.numberOfElements g e w.mem.list.indexes = .ok is
  delete : ∀ x ∈ c, ∃ is,
    deleteIndexes w.mem.list.numberOfElements g x.2 w.mem.list.indexes = .ok is

def World.Safe (w : World ε) (a : Grant ε × Call ε) : Prop :=
  match a.2 with
  | .insertAtEnd _ => a.1.node = true →
      w.mem.list.lastElement ≠ none ∨ w.mem.list.firstElement = none
  | .removeElement v => w.mem.list.Searches ∧ w.FreesBlocks (.removeElement v)
  | .removeNth n => w.FreesBlocks (.removeNth n)
  | .clearList => w.Clears a.1
  | .insertMany _ => False
  | _ => True

/-- The last node is not known or it is the last one of the chain. -/
def World.LastKnown (w : World ε) (c : List (ℕ × ε)) : Prop :=
  w.mem.list.lastElement = none ∨ w.mem.list.lastElement = prevOf none c

def Outcome (w : World ε) (c : List (ℕ × ε)) (a : Grant ε × Call ε) : Prop :=
  ∃ w' c', w.call a = .ok w' ∧ w'.Holds c' ∧ Effect w c a w' c'

theorem World.Holds.removes (h : w.Holds c) (hrun : w.IndexesRun c g) {a b : List (ℕ × ε)} {q : ℕ}
    {n : Node ε} (hin : NodeIn w.mem.heap.node c a b q n) {a' b' : List (Item ε)}
    (ha : List.Forall₂ (Matches w.mem.heap.block) a a')
    (hb : List.Forall₂ (Matches w.mem.heap.block) b b')
    {r : Except Fault (Mem ε × Removed ε)}
    (hr : ∀ is, deleteIndexes w.mem.list.numberOfElements g n.element w.mem.list.indexes = .ok is →
      Removes w.mem a b q n.element is r)
    {call : Call ε} (hcall : w.call (g, call) = ((fun m => ⟨m.1, a' ++ b'⟩) <$> r)) :
    Outcome w c (g, call) := by
  have hmem : (q, n.element) ∈ c := by
    rw [hin.split]
    exact mem_append_right _ (mem_cons_self ..)
  obtain ⟨is, his⟩ := hrun.delete _ hmem
  obtain ⟨node, first, rfl, hl⟩ := hr is his
  refine ⟨_, a ++ b, hcall, h.remove hin.split ha hb hl rfl (primary_shrunk ..), ?_⟩
  exact .remove a b q n.element hin.split his rfl

theorem World.call_keeps {call : Call ε} (hrun : call.run w.mem g = .ok w.mem)
    (hcontent : call.content w.mem.list.searchFunc g w.content = w.content) :
    w.call (g, call) = .ok w := by
  simp only [World.call, hrun, hcontent]
  rfl

theorem Outcome.keep (h : w.Holds c) {call : Call ε}
    (hrun : call.run w.mem g = .ok w.mem)
    (hcontent : call.content w.mem.list.searchFunc g w.content = w.content) :
    Outcome w c (g, call) := ⟨w, c, World.call_keeps hrun hcontent, h, .keep rfl rfl⟩

theorem insertIntoList_outcome (h : w.Holds c) {e : ε} (hf : w.Fresh (g, .insertIntoList e))
    (hrun : w.IndexesRun c g) : Outcome w c (g, .insertIntoList e) := by
  cases hg : g.node with
  | false =>
    apply Outcome.keep h
    · simp only [Call.run, insertIntoList, hg]
      rfl
    · simp only [Call.content, hg]
      rfl
  | true =>
    obtain ⟨is, his⟩ := hrun.insert e
    obtain ⟨b, mode, hres, hp⟩ := insertIntoList_spec hg h.primary his
    refine ⟨_, _, ?_, h.push (h.fresh_one hf rfl) rfl rfl hp, .push g.addr e rfl hg his rfl⟩
    simp only [World.call, Call.run, hres, Call.content, hg]
    rfl

theorem insertIntoListSorted_outcome (h : w.Holds c) {e : ε}
    (hf : w.Fresh (g, .insertIntoListSorted e)) (hrun : w.IndexesRun c g) :
    Outcome w c (g, .insertIntoListSorted e) := by
  cases hg : g.node with
  | false =>
    apply Outcome.keep h
    · simp only [Call.run, insertIntoListSorted, hg]
      rfl
    · simp only [Call.content, hg]
      rfl
  | true =>
    have hne := h.fresh_one hf rfl
    obtain ⟨is, his⟩ := hrun.insert e
    obtain ⟨b, mode, hres, hp⟩ := insertIntoListSorted_spec hg h.primary h.linked h.count hne his
    refine ⟨_, _, ?_, h.push hne rfl rfl hp, .push g.addr e rfl hg his rfl⟩
    simp only [World.call, Call.run, hres, Call.content, hg]
    rfl

theorem insertAtEnd_outcome (h : w.Holds c) {e : ε} (hf : w.Fresh (g, .insertAtEnd e))
    (hsafe : w.Safe (g, .insertAtEnd e)) (hlast : w.LastKnown c) :
    Outcome w c (g, .insertAtEnd e) := by
  cases hg : g.node with
  | false =>
    apply Outcome.keep h
    · simp only [Call.run, insertAtEnd, hg]
      rfl
    · simp only [Call.content, hg]
      rfl
  | true =>
    have hne := h.fresh_one hf rfl
    have hend : w.mem.list.lastElement = prevOf none c := by
      rcases hlast with hnone | hend
      · rcases hsafe hg with hne | hfirst
        · exact absurd hnone hne
        · rw [hnone, h.linked.eq_none_iff.mp hfirst]
          rfl
      · exact hend
    obtain ⟨node, b, mode, hres, hp, hl⟩ := insertAtEnd_spec hg h.primary h.linked hne hend
    refine ⟨_, _, ?_, h.append (l := (w.mem.list.appended g.addr).counted.reindexed b mode) hne hl
      rfl hp, .append g.addr e rfl hg rfl rfl⟩
    simp only [World.call, Call.run, hres, Call.content, hg]
    rfl

section

variable {p : α → Bool} {a b : List α} {y : α} {α : Type} (ha : ∀ x ∈ a, ¬ p x = true)
  (hy : p y = true)

include ha hy

theorem find?_split : (a ++ y :: b).find? p = some y := by
  rw [find?_append, find?_eq_none.mpr ha, find?_cons_of_pos hy]
  rfl

theorem eraseP_split : (a ++ y :: b).eraseP p = a ++ b := by
  rw [eraseP_append_right _ ha, eraseP_cons_of_pos hy]

end

theorem removeElement_outcome (h : w.Holds c) {v : ε} (hsearches : w.mem.list.Searches)
    (hblocks : w.FreesBlocks (.removeElement v)) (hrun : w.IndexesRun c g) :
    Outcome w c (g, .removeElement v) := by
  cases hf : w.mem.list.searchFunc with
  | none =>
    -- without a search function the list is empty
    have hfirst : w.mem.list.firstElement = none := hsearches.resolve_right fun h => h hf
    have hsearch : w.mem.list.search v = .ok fun _ => 0 := by rw [KList.search, hfirst, hf]
    rcases removeElement_spec (g := g) hsearch h.linked h.count with
      ⟨hres, -⟩ | ⟨a, b, q, n, hin, -⟩
    · apply Outcome.keep h
      · simp only [Call.run, hres]
        rfl
      · simp only [Call.content, hf]
    · have hsplit := hin.split
      rw [h.linked.eq_none_iff.mp hfirst] at hsplit
      exact absurd hsplit.symm (append_ne_nil_of_right_ne_nil _ (cons_ne_nil _ _))
  | some f =>
    have hsearch : w.mem.list.search v = .ok (f v) := by rw [KList.search, hf]
    rcases removeElement_spec (g := g) hsearch h.linked h.count with
      ⟨hres, hall⟩ | ⟨a, b, q, n, hin, hmatch, hall, hres⟩
    · apply Outcome.keep h
      · simp only [Call.run, hres]
        rfl
      · simp only [Call.content, hf]
        exact eraseP_of_forall_not (items_not h.items hall)
    · obtain ⟨a', y, b', hcontent, ha, ⟨hy, hyblock⟩, hb⟩ := h.split hin.split
      have hall' := items_not ha hall
      have hy0 : (f v y.1 == 0) = true := by
        rw [← hy]
        exact beq_iff_eq.mpr hmatch
      have hblock : w.mem.heap.block q = 1 := by
        apply hyblock
        apply hblocks f hf
        rw [hcontent]
        exact find?_split hall' hy0
      have herase : w.content.eraseP (fun x => f v x.1 == 0) = a' ++ b' := by
        rw [hcontent]
        exact eraseP_split hall' hy0
      have hcall : w.call (g, .removeElement v) =
          ((fun m => ⟨m.1, a' ++ b'⟩) <$> dropFound w.mem g (some (prevOf none a, q, n))) := by
        simp only [World.call, Call.run, hres, Call.content, hf, herase]
        cases dropFound w.mem g (some (prevOf none a, q, n)) <;> rfl
      exact h.removes hrun hin ha hb (fun is his => dropFound_spec h.linked hin hblock his) hcall

theorem removeNth_outcome (h : w.Holds c) {nth : ℤ} (hblocks : w.FreesBlocks (.removeNth nth))
    (hrun : w.IndexesRun c g) : Outcome w c (g, .removeNth nth) := by
  rcases Int.lt_or_le nth 1 with hlt | hle
  · apply Outcome.keep h
    · simp only [Call.run, removeNth, if_pos hlt]
      rfl
    · simp only [Call.content, if_pos hlt]
  · have hnot := Int.not_lt.mpr hle
    rcases removeNth_spec (g := g) hle h.linked with ⟨hres, hlen⟩ | ⟨a, b, q, n, hin, hlen, hres⟩
    · apply Outcome.keep h
      · simp only [Call.run, hres]
        rfl
      · simp only [Call.content, if_neg hnot]
        apply eraseIdx_of_length_le
        rw [← h.items.length_eq]
        exact hlen
    · obtain ⟨a', y, b', hcontent, ha, ⟨-, hyblock⟩, hb⟩ := h.split hin.split
      have hlen' : a'.length = nth.toNat - 1 := by rw [← ha.length_eq, hlen]
      have hblock : w.mem.heap.block q = 1 := by
        apply hyblock
        apply hblocks y hle
        rw [hcontent, ← hlen', getElem?_append_right (Nat.le_refl _), Nat.sub_self]
        rfl
      have herase : w.content.eraseIdx (nth.toNat - 1) = a' ++ b' := by
        rw [hcontent, ← hlen', eraseIdx_append_of_length_le (Nat.le_refl _), Nat.sub_self]
        rfl
      have hcall : w.call (g, .removeNth nth) =
          ((fun m => ⟨m.1, a' ++ b'⟩) <$> dropNth w.mem g (some (prevOf none a, q, n))) := by
        simp only [World.call, Call.run, hres, Call.content, if_neg hnot, herase]
        cases dropNth w.mem g (some (prevOf none a, q, n)) <;> rfl
      exact h.removes hrun hin ha hb (fun is his => dropNth_spec h.linked hin hblock his) hcall

omit [DecidableEq ε] [Inhabited ε] in
theorem World.Holds.freed (h : w.Holds c) (hclears : w.Clears g) :
    ∃ heap, freed w.mem g = .ok heap := by
  rw [Ovlfs.freed]
  rcases hclears with ⟨hlock, hsignal⟩ | ⟨hlock, halone, hreused⟩
  · rw [hlock, hsignal]
    exact ⟨w.mem.heap, rfl⟩
  · rw [hlock]
    apply freeNodes_spec h.linked (Nat.le_of_eq h.count.symm)
    · intro x hx
      obtain ⟨y, hy, -, hblock⟩ := h.exists_item hx
      exact hblock (halone y hy)
    · exact fun x hx => hreused x.1 (Option.isSome_iff_ne_none.mp (h.linked.isSome hx))

theorem clearList_outcome (h : w.Holds c) (hclears : w.Clears g) :
    Outcome w c (g, .clearList) := by
  obtain ⟨heap, hheap⟩ := h.freed hclears
  refine ⟨⟨⟨heap, { w.mem.list.cleanupIndex with
    numberOfElements := 0, firstElement := none, lastElement := none }⟩, []⟩, [], ?_,
    ⟨rfl, rfl, .nil, primary_of_not_indexed rfl⟩, .clear rfl rfl rfl⟩
  simp only [World.call, Call.run, clearList, hheap]
  rfl

/-- **What a call does**: it comes to its end, and the nodes hold the new sequence. -/
theorem World.Holds.call (h : w.Holds c) {a : Grant ε × Call ε} (hfresh : w.Fresh a)
    (hchain : a.2.onChain = true) (hsafe : w.Safe a) (hlast : w.LastKnown c)
    (hrun : w.IndexesRun c a.1) : Outcome w c a := by
  obtain ⟨g, call⟩ := a
  cases call with
  | insertIntoList e => exact insertIntoList_outcome h hfresh hrun
  | insertMany es => exact hsafe.elim
  | insertIntoListSorted e => exact insertIntoListSorted_outcome h hfresh hrun
  | insertAtEnd e => exact insertAtEnd_outcome h hfresh hsafe hlast
  | removeElement v => exact removeElement_outcome h hsafe.1 hsafe.2 hrun
  | removeNth n => exact removeNth_outcome h hsafe hrun
  | clearList => exact clearList_outcome h hsafe
  | setListAutolock b =>
    refine ⟨_, c, rfl, ⟨h.linked, h.count, h.items, ?_⟩, .keep rfl rfl⟩
    exact ⟨h.primary.entries, h.primary.compare⟩
  | addIndex cb l => cases hchain
  | dropIndex id => cases hchain
  | readIndex id n => cases hchain
  | searchIndex id d => cases hchain
  | changeIndexSort id cb => cases hchain

omit [DecidableEq ε] in
theorem insertMany_eq (his : w.mem.list.indexes = []) (hg : g.node = true) {es : List ε}
    (hes : es ≠ []) (hsmall : es.length < 2 ^ 29) {l' : KList ε}
    (hgrow : (w.mem.list.countedBy es.length).growMany g w.mem.list.numberOfElements es = .ok l') :
    insertMany w.mem g es = .ok (⟨w.mem.heap.allocMany g.addr l'.firstElement es,
      { l' with firstElement := some g.addr }⟩, es.head?) := by
  have hpos := length_pos_of_ne_nil hes
  have hnot : ¬ (es.length = 0 ∨ 2 ^ 29 ≤ es.length) := by omega
  rw [insertMany, if_pos hg, if_neg hnot, his]
  show (KList.indexInsertMany { w.mem.list with indexes := [] } es >>= _) = _
  rw [← his, indexInsertMany_eq his es]
  show ((w.mem.list.countedBy es.length).growMany g w.mem.list.numberOfElements es >>= _) = _
  rw [hgrow]
  rfl

theorem insertMany_outcome (h : w.Holds c) {es : List ε} (hf : w.Fresh (g, .insertMany es))
    (his : w.mem.list.indexes = []) (hg : g.node = true) (hes : es ≠ [])
    (hsmall : es.length < 2 ^ 29) :
    ∃ w', w.call (g, .insertMany es) = .ok w' ∧ w'.Holds (placed g.addr es ++ c) ∧
      w'.mem.list.lastElement = w.mem.list.lastElement ∧ w'.mem.list.indexes = [] := by
  obtain ⟨b, mode, hb, hp⟩ := growMany_spec h.primary g hes
  refine ⟨_, ?_, h.pushMany hes (h.fresh hf) rfl rfl (hp.pushed g.addr w.mem.list.indexes), rfl,
    his⟩
  simp only [World.call, Call.run, insertMany_eq his hg hes hsmall hb, Call.content, hg]
  rfl

end Step

/-! ## The last node -/

theorem prevOf_append {last : Option ℕ} (a : List (ℕ × ε)) {b : List (ℕ × ε)} (hb : b ≠ []) :
    prevOf last (a ++ b) = prevOf none b := by
  obtain ⟨b', x, rfl⟩ := (eq_nil_or_concat' b).resolve_left hb
  rw [← append_assoc, prevOf, prevOf, getLast?_concat, getLast?_concat]

theorem prevOf_eq (c : List (ℕ × ε)) : prevOf none c = c.getLast?.map Prod.fst := by
  rw [prevOf]
  cases c.getLast? <;> rfl

theorem prevOf_remove {a b : List (ℕ × ε)} {q : ℕ} {e : ε} (hne : ∀ x ∈ a ++ b, x.1 ≠ q) :
    (if prevOf none (a ++ (q, e) :: b) = some q then prevOf none a
      else prevOf none (a ++ (q, e) :: b)) = prevOf none (a ++ b) := by
  rcases eq_nil_or_concat' b with rfl | ⟨b', x, rfl⟩
  · have hlast : prevOf none (a ++ [(q, e)]) = some q := by
      rw [prevOf, getLast?_concat]
    rw [if_pos hlast, append_nil]
  · have hlast : prevOf none (a ++ (b' ++ [x])) = some x.1 := by
      rw [← append_assoc, prevOf, getLast?_concat]
    have hlast' : prevOf none (a ++ (q, e) :: (b' ++ [x])) = some x.1 := by
      rw [prevOf_append a (cons_ne_nil _ _), ← cons_append, prevOf, getLast?_concat]
    rw [hlast, hlast', if_neg]
    intro heq
    refine hne x ?_ (Option.some.inj heq)
    exact mem_append_right _ (mem_append_right _ (mem_singleton.mpr rfl))

theorem World.Holds.ne {w : World ε} {c a b : List (ℕ × ε)} {q : ℕ} {e : ε} (h : w.Holds c)
    (hc : c = a ++ (q, e) :: b) : ∀ x ∈ a ++ b, x.1 ≠ q := by
  intro x hx heq
  have hnodup := h.linked.nodup
  rw [hc, map_append, map_cons, perm_middle.nodup_iff, nodup_cons] at hnodup
  apply hnodup.1
  rw [← map_append]
  exact mem_map.mpr ⟨x, hx, heq⟩

theorem World.LastKnown.front {w w' : World ε} {c : List (ℕ × ε)} (h : w.LastKnown c)
    (hlast : w'.mem.list.lastElement = w.mem.list.lastElement) (b : List (ℕ × ε)) :
    w'.LastKnown (b ++ c) := by
  rcases h with hnone | hend
  · exact .inl (hlast.trans hnone)
  · cases c with
    | nil => exact .inl (hlast.trans hend)
    | cons x c =>
      refine .inr ?_
      rw [hlast, hend]
      exact (prevOf_append b (cons_ne_nil x c)).symm

theorem World.Holds.lastKnown [Inhabited ε] [DecidableEq ε] {w w' : World ε} {c c' : List (ℕ × ε)}
    {a : Grant ε × Call ε} (h : w.Holds c) (hl : w.LastKnown c) (heff : Effect w c a w' c') :
    w'.LastKnown c' := by
  cases heff with
  | keep hlast _ => exact hl.imp hlast.trans hlast.trans
  | push p e _ _ _ hlast => exact hl.front hlast [(p, e)]
  | append p e _ _ hlast _ =>
    refine .inr ?_
    rw [hlast, prevOf, getLast?_concat]
  | remove c₁ c₂ q e hc _ hlast =>
    rcases hl with hnone | hend
    · refine .inl ?_
      rw [hlast, hnone, if_neg (by rintro ⟨⟩)]
    · refine .inr ?_
      rw [hlast, hend, hc]
      exact prevOf_remove (h.ne hc)
  | clear _ hlast _ => exact .inl hlast

/-! ## The chain over runs -/

/-- The invariant of runs without alternate indexes. -/
structure World.Good (w : World ε) (c : List (ℕ × ε)) : Prop where
  holds : w.Holds c
  last : w.mem.list.lastElement = prevOf none c
  noIndex : w.mem.list.indexes = []

section

variable {w : World ε} {c : List (ℕ × ε)} (h : w.Good c)

include h

theorem World.Good.chained : w.Chained := by
  refine ⟨c, h.holds.linked, h.holds.count, h.holds.elements, ?_⟩
  rw [h.last, prevOf_eq]

theorem World.Good.empty_iff : w.mem.list.firstElement ≠ none ↔ c ≠ [] :=
  not_congr h.holds.linked.eq_none_iff

theorem World.Good.safe {a : Grant ε × Call ε} (hfits : w.Fits a)
    (hmany : ∀ es, a.2 ≠ .insertMany es) :
    w.Safe a := by
  obtain ⟨g, call⟩ := a
  cases call with
  | insertAtEnd e =>
    intro _
    rcases eq_nil_or_concat' c with rfl | ⟨c', x, rfl⟩
    · exact .inr h.holds.linked
    · refine .inl ?_
      rw [h.last, prevOf, getLast?_concat]
      exact Option.some_ne_none _
  | insertMany es => exact absurd rfl (hmany es)
  | removeElement v => exact hfits
  | removeNth n => exact hfits
  | clearList => exact hfits
  | _ => trivial

end

section Chain

variable [DecidableEq ε] [Inhabited ε] {w : World ε} {c : List (ℕ × ε)} {a : Grant ε × Call ε}

theorem World.indexesRun_of_none (h : w.mem.list.indexes = []) (c : List (ℕ × ε)) (g : Grant ε) :
    w.IndexesRun c g := by
  constructor
  · intro e
    rw [h]
    exact ⟨[], rfl⟩
  · intro x _
    rw [h]
    exact ⟨[], rfl⟩

theorem Effect.noIndex {c' : List (ℕ × ε)} {w' : World ε} (heff : Effect w c a w' c')
    (h : w.mem.list.indexes = []) : w'.mem.list.indexes = [] := by
  cases heff with
  | keep _ his => exact his.trans h
  | push p e _ _ his _ | remove c₁ c₂ q e _ his _ =>
    rw [h] at his
    exact (Except.ok.inj his).symm
  | append p e _ _ _ his => exact his.trans h
  | clear _ _ his => exact his.trans h

theorem World.Good.effect {c' : List (ℕ × ε)} {w' : World ε} (h : w.Good c) (hholds : w'.Holds c')
    (heff : Effect w c a w' c') (hfront : a.2.atFront = true → a.1.node = true → c ≠ []) :
    w'.Good c' := by
  refine ⟨hholds, ?_, heff.noIndex h.noIndex⟩
  cases heff with
  | keep hlast _ => exact hlast.trans h.last
  | push p e hcall hg _ hlast =>
    rw [hlast, h.last, ← singleton_append, prevOf_append _ (hfront hcall hg)]
  | append p e _ _ hlast _ => rw [hlast, prevOf, getLast?_concat]
  | remove c₁ c₂ q e hc _ hlast =>
    rw [hlast, h.last, hc]
    exact prevOf_remove (h.holds.ne hc)
  | clear _ hlast _ => exact hlast

/-- **The step lemma**: a call that fits comes to its end and keeps the invariant. -/
theorem World.Good.call (h : w.Good c) (hfresh : w.Fresh a) (hchain : a.2.onChain = true)
    (hfits : w.Fits a) : ∃ w' c', w.call a = .ok w' ∧ w'.Good c' := by
  obtain ⟨g, call⟩ := a
  have hother : (∀ es, call ≠ .insertMany es) →
      (call.atFront = true → g.node = true → c ≠ []) →
      ∃ w' c', w.call (g, call) = .ok w' ∧ w'.Good c' := by
    intro hmany hfront
    obtain ⟨w', c', hcall, hholds, heff⟩ := h.holds.call hfresh hchain (h.safe hfits hmany)
      (.inr h.last) (World.indexesRun_of_none h.noIndex c g)
    exact ⟨w', c', hcall, h.effect hholds heff hfront⟩
  cases call with
  | insertMany es =>
    cases hg : g.node with
    | false =>
      have hkeep : Outcome w c (g, .insertMany es) := by
        apply Outcome.keep h.holds
        · simp only [Call.run, insertMany, hg]
          rfl
        · simp only [Call.content, hg]
          rfl
      obtain ⟨w', c', hcall, hholds, heff⟩ := hkeep
      exact ⟨w', c', hcall, h.effect hholds heff fun hfront => Bool.noConfusion hfront⟩
    | true =>
      obtain ⟨hfirst, hes, hsmall⟩ := hfits hg
      obtain ⟨w', hcall, hholds, hlast, his⟩ :=
        insertMany_outcome h.holds hfresh h.noIndex hg hes hsmall
      refine ⟨w', _, hcall, hholds, ?_, his⟩
      rw [hlast, h.last, prevOf_append _ (h.empty_iff.mp hfirst)]
  | insertIntoList e | insertIntoListSorted e =>
    exact hother nofun fun _ hg => h.empty_iff.mp (hfits hg)
  | _ => exact hother nofun fun hfront => Bool.noConfusion hfront

/-- **The list is a chain in every run whose calls fit**, and no call of such a run goes wrong. -/
theorem list_is_chain {heap : Heap ε} {cmp search : Option (CompFunc ε)}
    (h : (chainCalls heap cmp search).Reach World.Fits w) :
    w.Chained ∧ ∀ a, w.Fresh a → a.2.onChain = true → w.Fits a → ∃ w', w.call a = .ok w' := by
  have hgood : ∃ c, w.Good c := by
    apply h.invariant
    · exact ⟨[], ⟨rfl, rfl, .nil, primary_of_not_indexed rfl⟩, rfl, rfl⟩
    · rintro w a w' ⟨c, hc⟩ hallowed hfits hstep
      obtain ⟨w'', c', hcall, hc'⟩ := hc.call hallowed.1 hallowed.2 hfits
      obtain rfl := Except.ok.inj (hcall.symm.trans hstep)
      exact ⟨c', hc'⟩
  obtain ⟨c, hc⟩ := hgood
  refine ⟨hc.chained, ?_⟩
  intro a hfresh hchain hfits
  obtain ⟨w', -, hcall, -⟩ := hc.call hfresh hchain hfits
  exact ⟨w', hcall⟩

end Chain

def Grant.at (p : ℕ) : Grant ℕ where
  node := true
  addr := p
  table _ := true
  grow := true
  make := true
  slot := true
  info := true
  junk := 0
  reused _ := none
  signal := false

def emptyHeap : Heap ℕ := ⟨fun _ => none, fun _ => 0⟩

/-- A list of two elements, one put to the end and one to the front, of which the second node is
removed. -/
theorem list_is_chain_three_calls :
    ∃ w, (chainCalls emptyHeap (some fun a b => (a : ℤ) - b) none).Reach World.Fits w ∧
      w.content = [(2, true)] ∧ w.Chained := by
  have h₁ : (chainCalls emptyHeap (some fun a b => (a : ℤ) - b) none).Reach World.Fits _ :=
    .step (a := (Grant.at 10, Call.insertAtEnd 1)) .init ⟨fun _ _ _ => rfl, rfl⟩ trivial rfl
  have hfresh : ∀ q, 20 ≤ q → q < 20 + 1 → q = 20 := fun q h h' => by omega
  have h₂ := h₁.next (Grant.at 20, Call.insertIntoListSorted 2)
      ⟨fun q h h' => hfresh q h h' ▸ rfl, rfl⟩ (fun _ => Option.some_ne_none _) rfl
  have h₃ := h₂.next (Grant.at 30, Call.removeNth 2)
      ⟨fun q h h' => absurd h' (Nat.not_lt.mpr h), rfl⟩ (fun x _ hx => Option.some.inj hx ▸ rfl) rfl
  exact ⟨_, h₃, rfl, (list_is_chain h₃).1⟩

/-- An element put to the front of an empty list and one put to its end: the list counts two
elements and the chain has one. -/
theorem list_is_no_chain :
    ∃ w, (chainCalls emptyHeap none none).Reach (fun _ _ => True) w ∧
      w.content = [(1, true), (2, true)] ∧ ¬ w.Chained := by
  have h₁ : (chainCalls emptyHeap none none).Reach (fun _ _ => True) _ :=
    .step (a := (Grant.at 10, Call.insertIntoList 1)) .init ⟨fun _ _ _ => rfl, rfl⟩ trivial rfl
  have hfresh : ∀ q, 20 ≤ q → q < 20 + 1 → q = 20 := fun q h h' => by omega
  have h₂ := h₁.next (Grant.at 20, Call.insertAtEnd 2)
      ⟨fun q h h' => hfresh q h h' ▸ rfl, rfl⟩ trivial rfl
  refine ⟨_, h₂, rfl, ?_⟩
  rintro ⟨c, hc, hlen, -⟩
  have hone := hc.unique (show Linked _ _ [(10, 1)] from ⟨rfl, none, rfl, rfl⟩)
  rw [hone] at hlen
  cases hlen

end Ovlfs
