import ReadingComment.Ovlfs.KernelLists

/-!
# The chain of a list

What the operations do to the nodes of a list. `Linked` says that the nodes from an
address on are a given sequence of addresses and elements; an operation has one
lemma that says what it makes of the sequence, of the last node and of the primary
index, with the alternate indexes left as a hypothesis.
-/

namespace Ovlfs

open Function List Ordered

variable {ε : Type}

/-! ## Chains -/

def Linked (node : ℕ → Option (Node ε)) : Option ℕ → List (ℕ × ε) → Prop
  | p, [] => p = none
  | p, (q, e) :: l => p = some q ∧ ∃ next, node q = some ⟨e, next⟩ ∧ Linked node next l

namespace Linked

variable {node node' : ℕ → Option (Node ε)} {p : Option ℕ} {l : List (ℕ × ε)}

theorem node_eq (h : Linked node p l) {x : ℕ × ε} (hx : x ∈ l) :
    ∃ next, node x.1 = some ⟨x.2, next⟩ := by
  induction l generalizing p with
  | nil => cases hx
  | cons y l ih =>
    obtain ⟨-, next, hy, hl⟩ := h
    rcases mem_cons.mp hx with rfl | hx
    · exact ⟨next, hy⟩
    · exact ih hl hx

theorem isSome (h : Linked node p l) {x : ℕ × ε} (hx : x ∈ l) : (node x.1).isSome = true := by
  obtain ⟨next, hnode⟩ := h.node_eq hx
  rw [hnode]
  rfl

theorem congr (h : Linked node p l) (hsame : ∀ x ∈ l, node' x.1 = node x.1) :
    Linked node' p l := by
  induction l generalizing p with
  | nil => exact h
  | cons y l ih =>
    obtain ⟨hp, next, hy, hl⟩ := h
    refine ⟨hp, next, ?_, ih hl fun x hx => hsame x (mem_cons_of_mem _ hx)⟩
    rw [hsame y (mem_cons_self ..)]
    exact hy

theorem unique (h : Linked node p l) {l' : List (ℕ × ε)} (h' : Linked node p l') : l = l' := by
  induction l generalizing p l' with
  | nil =>
    cases l' with
    | nil => rfl
    | cons y l' =>
      rw [Linked] at h
      rw [h] at h'
      cases h'.1
  | cons x l ih =>
    obtain ⟨rfl, next, hx, hl⟩ := h
    cases l' with
    | nil => cases h'
    | cons y l' =>
      obtain ⟨hp, next', hy, hl'⟩ := h'
      obtain ⟨x, e⟩ := x
      obtain ⟨y, e'⟩ := y
      cases hp
      obtain ⟨rfl, rfl⟩ := Node.mk.inj (Option.some.inj (hx.symm.trans hy))
      rw [ih hl hl']

theorem suffix {a b : List (ℕ × ε)} (h : Linked node p (a ++ b)) : ∃ q, Linked node q b := by
  induction a generalizing p with
  | nil => exact ⟨p, h⟩
  | cons x a ih =>
    obtain ⟨-, next, -, hl⟩ := h
    exact ih hl

theorem nodup (h : Linked node p l) : (l.map Prod.fst).Nodup := by
  induction l generalizing p with
  | nil => exact nodup_nil
  | cons x l ih =>
    obtain ⟨rfl, next, hx, hl⟩ := h
    refine nodup_cons.mpr ⟨?_, ih hl⟩
    intro hmem
    obtain ⟨y, hy, hxy⟩ := mem_map.mp hmem
    obtain ⟨a, b, rfl⟩ := append_of_mem hy
    obtain ⟨q, hq⟩ := hl.suffix
    have hq' : Linked node (some x.1) (y :: b) := by
      obtain ⟨-, hrest⟩ := hq
      exact ⟨congrArg some hxy.symm, hrest⟩
    have hwhole : Linked node (some x.1) (x :: (a ++ y :: b)) := ⟨rfl, next, hx, hl⟩
    have hlen := congrArg List.length (hq'.unique hwhole)
    simp only [length_cons, length_append] at hlen
    omega

theorem relink {a b c : List (ℕ × ε)} {r : ℕ} {f : ε} {next' : Option ℕ}
    (h : Linked node p (a ++ (r, f) :: c)) (hb : Linked node next' b)
    (hrb : ∀ x ∈ b, x.1 ≠ r) :
    Linked (update node r (some ⟨f, next'⟩)) p (a ++ (r, f) :: b) := by
  have hnodup := h.nodup
  induction a generalizing p with
  | nil =>
    obtain ⟨hp, -⟩ := h
    refine ⟨hp, next', update_self _ _ _, hb.congr fun x hx => ?_⟩
    exact update_of_ne (hrb x hx) _ _
  | cons x a ih =>
    obtain ⟨hp, next, hx, hl⟩ := h
    rw [cons_append, map_cons, nodup_cons] at hnodup
    refine ⟨hp, next, ?_, ih hl hnodup.2⟩
    rw [update_of_ne]
    · exact hx
    · intro hxr
      apply hnodup.1
      rw [hxr, map_append, mem_append]
      exact .inr (mem_cons_self ..)

theorem cons {q : ℕ} {e : ε} (h : Linked node p l) (hq : ∀ x ∈ l, x.1 ≠ q) :
    Linked (update node q (some ⟨e, p⟩)) (some q) ((q, e) :: l) :=
  ⟨rfl, p, update_self _ _ _, h.congr fun x hx => update_of_ne (hq x hx) _ _⟩

theorem eq_none_iff (h : Linked node p l) : p = none ↔ l = [] := by
  cases l with
  | nil => exact ⟨fun _ => rfl, fun _ => h⟩
  | cons x l =>
    obtain ⟨rfl, -⟩ := h
    exact ⟨fun h => (Option.some_ne_none _ h).elim, fun h => (cons_ne_nil _ _ h).elim⟩

end Linked

def placed (p : ℕ) : List ε → List (ℕ × ε)
  | [] => []
  | e :: es => (p, e) :: placed (p + 1) es

theorem length_placed (p : ℕ) (es : List ε) : (placed p es).length = es.length := by
  induction es generalizing p with
  | nil => rfl
  | cons e es ih => rw [placed, length_cons, length_cons, ih]

def writeChain (node : ℕ → Option (Node ε)) (p : ℕ) (next : Option ℕ) (es : List ε) :
    ℕ → Option (Node ε) :=
  (Heap.chainUp p next es).foldl (fun m n => Function.update m n.1 (some n.2)) node

theorem writeChain_cons (node : ℕ → Option (Node ε)) (p : ℕ) (next : Option ℕ) (e e' : ε)
    (es : List ε) :
    writeChain node p next (e :: e' :: es) =
      writeChain (update node p (some ⟨e, some (p + 1)⟩)) (p + 1) next (e' :: es) := rfl

theorem writeChain_of_lt {node : ℕ → Option (Node ε)} {p : ℕ} {next : Option ℕ} {es : List ε}
    {q : ℕ} (hq : q < p ∨ p + es.length ≤ q) : writeChain node p next es q = node q := by
  induction es generalizing p node with
  | nil => rfl
  | cons e es ih =>
    rw [length_cons] at hq
    cases es with
    | nil =>
      rw [length_nil] at hq
      exact update_of_ne (by omega) _ _
    | cons e' es =>
      rw [writeChain_cons, ih (by omega)]
      exact update_of_ne (by omega) _ _

theorem Linked.writeChain {node : ℕ → Option (Node ε)} {next : Option ℕ} {l : List (ℕ × ε)}
    (h : Linked node next l) {p : ℕ} {es : List ε} (hes : es ≠ [])
    (hfree : ∀ x ∈ l, x.1 < p ∨ p + es.length ≤ x.1) :
    Linked (writeChain node p next es) (some p) (placed p es ++ l) := by
  induction es generalizing p node with
  | nil => exact absurd rfl hes
  | cons e es ih =>
    rw [length_cons] at hfree
    cases es with
    | nil =>
      apply h.cons
      intro x hx
      have := hfree x hx
      rw [length_nil] at this
      omega
    | cons e' es =>
      have hkeep : Linked (update node p (some ⟨e, some (p + 1)⟩)) next l := by
        apply h.congr
        intro x hx
        have := hfree x hx
        exact update_of_ne (by omega) _ _
      have hfree' : ∀ x ∈ l, x.1 < p + 1 ∨ p + 1 + (e' :: es).length ≤ x.1 := by
        intro x hx
        have := hfree x hx
        omega
      refine ⟨rfl, some (p + 1), ?_, ih hkeep (cons_ne_nil _ _) hfree'⟩
      rw [writeChain_cons, writeChain_of_lt (.inl (Nat.lt_succ_self p))]
      exact update_self _ _ _

/-! ## Walks -/

/-- The node before the place, `last` when the chain begins there. -/
def prevOf (last : Option ℕ) (a : List (ℕ × ε)) : Option ℕ :=
  match a.getLast? with
  | some x => some x.1
  | none => last

theorem prevOf_cons (last : Option ℕ) (x : ℕ × ε) (a : List (ℕ × ε)) :
    prevOf last (x :: a) = prevOf (some x.1) a := by
  rw [prevOf, prevOf, getLast?_cons]
  cases a.getLast? with
  | none => rfl
  | some y => rfl

/-- A node of a chain: what is before it, and what it holds. -/
structure NodeIn (node : ℕ → Option (Node ε)) (l : List (ℕ × ε)) (a b : List (ℕ × ε)) (q : ℕ)
    (n : Node ε) : Prop where
  split : l = a ++ (q, n.element) :: b
  here : node q = some n
  rest : Linked node n.next b

theorem NodeIn.cons {node : ℕ → Option (Node ε)} {l a b : List (ℕ × ε)} {q : ℕ} {n : Node ε}
    (h : NodeIn node l a b q n) (x : ℕ × ε) : NodeIn node (x :: l) (x :: a) b q n :=
  ⟨by rw [h.split, cons_append], h.here, h.rest⟩

variable {h : Heap ε}

theorem deref_of {q : ℕ} {n : Node ε} (hq : h.node q = some n) :
    h.deref (some q) = .ok n := by
  rw [Heap.deref, hq]

theorem findNode_spec (search : ε → ℤ) {p : Option ℕ} {l : List (ℕ × ε)} (hl : Linked h.node p l)
    {fuel : ℕ} (hfuel : l.length ≤ fuel) (last : Option ℕ) :
    (findNode h search fuel last p = .ok none ∧ ∀ x ∈ l, search x.2 ≠ 0) ∨
    (∃ a b q n, findNode h search fuel last p = .ok (some (prevOf last a, q, n)) ∧
      NodeIn h.node l a b q n ∧ search n.element = 0 ∧ ∀ x ∈ a, search x.2 ≠ 0) := by
  induction l generalizing p fuel last with
  | nil =>
    obtain rfl : p = none := hl
    refine .inl ⟨by rw [findNode], ?_⟩
    intro x hx
    cases hx
  | cons x l ih =>
    obtain ⟨rfl, next, hx, hnext⟩ := hl
    rw [length_cons] at hfuel
    obtain ⟨fuel, rfl⟩ : ∃ k, fuel = k + 1 := ⟨fuel - 1, by omega⟩
    have hstep : findNode h search (fuel + 1) last (some x.1) =
        if search x.2 ≠ 0 then findNode h search fuel (some x.1) next
        else .ok (some (last, x.1, ⟨x.2, next⟩)) := by
      rw [findNode, deref_of hx]
      rfl
    rw [hstep]
    split
    · rename_i hne
      rcases ih hnext (Nat.le_of_succ_le_succ hfuel) (some x.1) with
        ⟨hres, hall⟩ | ⟨a, b, q, n, hres, hin, hmatch, hall⟩
      · refine .inl ⟨hres, ?_⟩
        intro y hy
        rcases mem_cons.mp hy with rfl | hy
        · exact hne
        · exact hall y hy
      · refine .inr ⟨x :: a, b, q, n, ?_, hin.cons x, hmatch, ?_⟩
        · rw [prevOf_cons]
          exact hres
        · intro y hy
          rcases mem_cons.mp hy with rfl | hy
          · exact hne
          · exact hall y hy
    · rename_i heq
      refine .inr ⟨[], l, x.1, ⟨x.2, next⟩, rfl, ⟨rfl, hx, hnext⟩, not_not.mp heq, ?_⟩
      intro y hy
      cases hy

theorem findNth_spec {p : Option ℕ} {l : List (ℕ × ε)} (hl : Linked h.node p l) (k : ℕ)
    (last : Option ℕ) :
    (findNth h k last p = .ok none ∧ l.length ≤ k) ∨
    (∃ a b q n, findNth h k last p = .ok (some (prevOf last a, q, n)) ∧
      NodeIn h.node l a b q n ∧ a.length = k) := by
  induction l generalizing p k last with
  | nil =>
    obtain rfl : p = none := hl
    exact .inl ⟨by rw [findNth], Nat.zero_le _⟩
  | cons x l ih =>
    obtain ⟨rfl, next, hx, hnext⟩ := hl
    cases k with
    | zero =>
      refine .inr ⟨[], l, x.1, ⟨x.2, next⟩, ?_, ⟨rfl, hx, hnext⟩, rfl⟩
      rw [findNth, deref_of hx]
      rfl
    | succ k =>
      have hstep : findNth h (k + 1) last (some x.1) = findNth h k (some x.1) next := by
        rw [findNth, deref_of hx]
        rfl
      rw [hstep]
      rcases ih hnext k (some x.1) with ⟨hres, hlen⟩ | ⟨a, b, q, n, hres, hin, hlen⟩
      · exact .inl ⟨hres, Nat.succ_le_succ hlen⟩
      · refine .inr ⟨x :: a, b, q, n, ?_, hin.cons x, by rw [length_cons, hlen]⟩
        rw [prevOf_cons]
        exact hres

theorem makeIndex_eq {p : Option ℕ} {l : List (ℕ × ε)} (hl : Linked h.node p l) :
    makeIndex h l.length p = .ok (l.map Prod.snd) := by
  induction l generalizing p with
  | nil => rfl
  | cons x l ih =>
    obtain ⟨rfl, next, hx, hnext⟩ := hl
    rw [length_cons, makeIndex, deref_of hx]
    show (makeIndex h l.length next >>= fun rest => pure (x.2 :: rest)) = _
    rw [ih hnext]
    rfl

theorem unlink_spec {m : Mem ε} {l a b : List (ℕ × ε)} {q : ℕ} {n : Node ε}
    (hl : Linked m.heap.node m.list.firstElement l) (hin : NodeIn m.heap.node l a b q n) :
    ∃ node first, unlink m (prevOf none a) q n =
        .ok ⟨⟨node, m.heap.block⟩, { m.list with
          firstElement := first
          lastElement := if m.list.lastElement = some q then prevOf none a
            else m.list.lastElement }⟩ ∧
      Linked node first (a ++ b) := by
  have hsplit := hin.split
  rw [hsplit] at hl
  rcases eq_nil_or_concat' a with rfl | ⟨a', x, rfl⟩
  · exact ⟨m.heap.node, n.next, rfl, hin.rest⟩
  · have hprev : prevOf none (a' ++ [x]) = some x.1 := by
      rw [prevOf, getLast?_concat]
    rw [append_assoc] at hl
    have hxb : ∀ y ∈ b, y.1 ≠ x.1 := by
      intro y hy heq
      have hnodup := hl.nodup
      rw [map_append, nodup_append] at hnodup
      have := hnodup.2.1
      rw [singleton_append, map_cons, nodup_cons, map_cons] at this
      apply this.1
      rw [← heq]
      exact mem_cons_of_mem _ (mem_map_of_mem hy)
    have hx : ∃ next, m.heap.node x.1 = some ⟨x.2, next⟩ := by
      obtain ⟨r, hr⟩ := hl.suffix
      obtain ⟨-, next, hx, -⟩ := hr
      exact ⟨next, hx⟩
    obtain ⟨next, hx⟩ := hx
    refine ⟨update m.heap.node x.1 (some ⟨x.2, n.next⟩), m.list.firstElement, ?_, ?_⟩
    · rw [hprev, unlink, Heap.setNext, deref_of hx]
      rfl
    · rw [append_assoc]
      exact hl.relink hin.rest hxb

/-! ## The primary index -/

/-- The primary index of a list that is indexed has an entry for each element. -/
structure Primary (l : KList ε) : Prop where
  entries : l.isIndexed = true →
    0 < l.numberOfElements ∧ ∃ a, l.elementList = some a ∧ a.length = l.numberOfElements
  compare : l.indexMode = .sorted → l.elementCompare.isSome = true

def Reindexes (l : KList ε) (r : Except Fault (KList ε)) : Prop :=
  ∃ a mode, r = .ok (l.reindexed a mode) ∧ Primary (l.reindexed a mode)

theorem isIndexed_iff {l : KList ε} : l.isIndexed = true ↔ l.indexMode ≠ .notIndexed := bne_iff_ne

theorem not_indexed {l : KList ε} (h : ¬ l.isIndexed = true) : l.indexMode = .notIndexed := by
  by_contra hne
  exact h (isIndexed_iff.mpr hne)

theorem primary_of_not_indexed {l : KList ε} (h : l.indexMode = .notIndexed) : Primary l := by
  refine ⟨?_, ?_⟩
  · intro hi
    exact absurd h (isIndexed_iff.mp hi)
  · intro hs
    rw [h] at hs
    cases hs

theorem cleanupIndex_spec (l : KList ε) : Reindexes l (.ok l.cleanupIndex) :=
  ⟨_, .notIndexed, rfl, primary_of_not_indexed rfl⟩

theorem copied_spec {l : KList ε} {n : ℕ} (h : Primary { l with numberOfElements := n })
    (hi : l.isIndexed = true) (g : Grant ε) :
    ∃ a, l.copied g n = .ok a ∧ a.length = n ∧ l.elementList = some a := by
  obtain ⟨-, a, ha, hlen⟩ := h.entries hi
  have ha' : l.elementList = some a := ha
  have hlen' : a.length = n := hlen
  refine ⟨a, ?_, hlen', ha'⟩
  rw [KList.copied, ha']
  simp only [hlen', Nat.lt_irrefl, if_false]
  rw [← hlen', take_length]

theorem growIndex_spec {l : KList ε} {n : ℕ} (h : Primary { l with numberOfElements := n })
    (hi : l.isIndexed = true) (hn : n < l.numberOfElements) (g : Grant ε) {write : List ε → List ε}
    (hw : ∀ a, a.length = l.numberOfElements → (write a).length = l.numberOfElements) :
    Reindexes l (l.growIndex g n write) := by
  rw [KList.growIndex]
  split
  · obtain ⟨a, ha, hlen, -⟩ := copied_spec h hi g
    refine ⟨some (write (a ++ List.replicate (l.numberOfElements - n) g.junk)), .flat, ?_, ?_, ?_⟩
    · rw [ha]
      rfl
    · intro _
      refine ⟨Nat.zero_lt_of_lt hn, _, rfl, hw _ ?_⟩
      rw [length_append, length_replicate, hlen]
      omega
    · intro hs
      cases hs
  · exact cleanupIndex_spec l

theorem appendToIndex_spec {l : KList ε} (h : Primary l) (g : Grant ε) (ele : ε) :
    Reindexes l.counted (l.counted.appendToIndex g l.numberOfElements ele) := by
  rw [KList.appendToIndex]
  split
  · rename_i hi
    apply growIndex_spec (l := l.counted) h hi (Nat.lt_succ_self _)
    intro a ha
    rw [length_set]
    exact ha
  · rename_i hi
    exact ⟨l.elementList, l.indexMode, rfl, primary_of_not_indexed (not_indexed hi)⟩

theorem Reindexes.self {l : KList ε} (h : Primary l) : Reindexes l (.ok l) := ⟨_, _, rfl, h⟩

theorem Reindexes.bind {l : KList ε} {r : Except Fault (KList ε)}
    {f : KList ε → Except Fault (KList ε)} (h : Reindexes l r)
    (hf : ∀ a mode, Primary (l.reindexed a mode) →
      Reindexes (l.reindexed a mode) (f (l.reindexed a mode))) : Reindexes l (r >>= f) := by
  obtain ⟨a, mode, rfl, hp⟩ := h
  obtain ⟨b, mode', hb, hp'⟩ := hf a mode hp
  exact ⟨b, mode', hb, hp'⟩

variable {heap : Heap ε}

theorem checkIndex_spec {l : KList ε} (h : Primary l) {c : List (ℕ × ε)}
    (hc : Linked heap.node l.firstElement c) (hlen : l.numberOfElements = c.length)
    (hpos : 0 < l.numberOfElements) (g : Grant ε) : Reindexes l (l.checkIndex heap g) := by
  rw [KList.checkIndex]
  split
  · exact .self h
  · rename_i hi
    split
    · refine ⟨some (c.map Prod.snd), .flat, ?_, ?_, ?_⟩
      · rw [hlen, makeIndex_eq hc]
        rfl
      · intro _
        refine ⟨hpos, _, rfl, ?_⟩
        rw [length_map]
        exact hlen.symm
      · intro hs
        cases hs
    · exact ⟨none, l.indexMode, rfl, primary_of_not_indexed (not_indexed hi)⟩

theorem ssortArr_eq (cmp : CompFunc ε) (a : List ε) :
    ssortArr cmp a.length a = .ok (ssort cmp (a.length - 1) a) := by
  rw [ssortArr, if_neg (Nat.lt_irrefl _), take_length, drop_length, append_nil]

theorem sortIndexed_spec {l : KList ε} (h : Primary l) : Reindexes l l.sortIndexed := by
  rw [KList.sortIndexed]
  split
  · rename_i cmp hi hcmp
    obtain ⟨hpos, a, ha, hlen⟩ := h.entries hi
    refine ⟨some (ssort cmp (a.length - 1) a), .sorted, ?_, ?_, ?_⟩
    · rw [ha, ← hlen]
      show (ssortArr cmp a.length a >>= fun a => _) = _
      rw [ssortArr_eq]
      rfl
    · intro _
      refine ⟨hpos, _, rfl, ?_⟩
      rw [length_ssort]
      exact hlen
    · intro _
      show l.elementCompare.isSome = true
      rw [hcmp]
      rfl
  · exact .self h

theorem sortList_spec {l : KList ε} (h : Primary l) {c : List (ℕ × ε)}
    (hc : Linked heap.node l.firstElement c) (hlen : l.numberOfElements = c.length)
    (hpos : 0 < l.numberOfElements) (g : Grant ε) : Reindexes l (l.sortList heap g) :=
  (checkIndex_spec h hc hlen hpos g).bind fun _ _ hp => sortIndexed_spec hp

theorem growIndexOrdered_spec {l : KList ε} (h : Primary l) (hs : l.indexMode = .sorted)
    (g : Grant ε) (ele : ε) :
    ∃ pos, l.insertPos ele = .ok pos ∧
      Reindexes l.counted (l.counted.growIndexOrdered g ele pos l.numberOfElements) := by
  have hi : l.isIndexed = true := by
    rw [isIndexed_iff, hs]
    decide
  obtain ⟨hpos, a, ha, hlen⟩ := h.entries hi
  obtain ⟨cmp, hcmp⟩ := Option.isSome_iff_exists.mp (h.compare hs)
  obtain ⟨c, d, hbis, hc⟩ := bisect_total (cmp ele) (Nat.le_of_eq hlen.symm) hpos (Nat.le_refl _)
    (Nat.le_succ l.numberOfElements)
  refine ⟨if 0 < d then c + 1 else c, ?_, ?_⟩
  · rw [KList.insertPos, hcmp, ha]
    show findInsertPos cmp l.numberOfElements ele a = _
    rw [findInsertPos, hbis]
    rfl
  · have hle : (if 0 < d then c + 1 else c) ≤ l.numberOfElements := by
      split <;> omega
    generalize (if 0 < d then c + 1 else c) = pos at hle ⊢
    rw [KList.growIndexOrdered]
    split
    · obtain ⟨b, hb, hblen, -⟩ :=
        copied_spec (l := l.counted) h hi g
      refine ⟨some (b.take pos ++ ele :: b.drop pos), l.indexMode, ?_, ?_, h.compare⟩
      · rw [hb]
        show (if l.numberOfElements < pos then _ else _) = _
        rw [if_neg (Nat.not_lt.mpr hle)]
        rfl
      · intro _
        refine ⟨Nat.succ_pos _, _, rfl, ?_⟩
        show (b.take pos ++ ele :: b.drop pos).length = l.numberOfElements + 1
        rw [length_append, length_cons, length_take, length_drop, hblen]
        omega
    · exact ⟨none, .notIndexed, rfl, primary_of_not_indexed rfl⟩

theorem sortedInsert_spec {l : KList ε} (h : Primary l) {c : List (ℕ × ε)}
    (hc : Linked heap.node l.firstElement c) (hlen : l.numberOfElements + 1 = c.length)
    (g : Grant ε) (ele : ε) : Reindexes l.counted (l.sortedInsert heap g ele) := by
  rw [KList.sortedInsert]
  split
  · rename_i hs
    obtain ⟨pos, hpos, hre⟩ := growIndexOrdered_spec h hs g ele
    rw [hpos]
    exact hre
  · apply (appendToIndex_spec h g ele).bind
    intro a mode hp
    exact sortList_spec hp hc hlen (Nat.succ_pos _) g

/-! ## What the operations make of the chain -/

def KList.pushed (l : KList ε) (p : ℕ) (is : List (Option (Index ε))) : KList ε :=
  { l with firstElement := some p, indexes := is }

theorem Primary.pushed {l : KList ε} (h : Primary l) (p : ℕ) (is : List (Option (Index ε))) :
    Primary (l.pushed p is) := ⟨h.entries, h.compare⟩

section Operations

variable {m : Mem ε} {g : Grant ε} {e : ε} {c : List (ℕ × ε)} {is : List (Option (Index ε))}

def KList.appended (l : KList ε) (p : ℕ) : KList ε :=
  { l with
    lastElement := some p
    firstElement := if l.firstElement = none then some p else l.firstElement }

variable {l' : KList ε}

theorem insertAtEnd_eq (hg : g.node = true) (hc : Linked m.heap.node m.list.firstElement c)
    (hfree : ∀ x ∈ c, x.1 ≠ g.addr) (hlast : m.list.lastElement = prevOf none c)
    (happend : (m.list.appended g.addr).counted.appendToIndex g m.list.numberOfElements e =
      .ok l') :
    ∃ node, insertAtEnd m g e =
        .ok (⟨⟨node, update m.heap.block g.addr 1⟩, l'⟩, some e) ∧
      Linked node (m.list.appended g.addr).firstElement (c ++ [(g.addr, e)]) := by
  -- the new node is the end of a chain of its own
  have hnew : Linked (update m.heap.node g.addr (some ⟨e, none⟩)) (some g.addr)
      [(g.addr, e)] := ⟨rfl, none, update_self _ _ _, rfl⟩
  rcases eq_nil_or_concat' c with rfl | ⟨c', x, rfl⟩
  · have hfirst : m.list.firstElement = none := hc
    refine ⟨update m.heap.node g.addr (some ⟨e, none⟩), ?_, ?_⟩
    · rw [insertAtEnd, if_pos hg, hlast]
      show ((m.list.appended g.addr).counted.appendToIndex g _ e >>= _) = _
      rw [happend]
      rfl
    · rw [KList.appended, if_pos hfirst]
      exact hnew
  · have hprev : prevOf none (c' ++ [x]) = some x.1 := by
      rw [prevOf, getLast?_concat]
    have hxp : x.1 ≠ g.addr := hfree x (mem_append_right _ (mem_singleton.mpr rfl))
    obtain ⟨next, hx⟩ : ∃ next, m.heap.node x.1 = some ⟨x.2, next⟩ := by
      obtain ⟨r, hr⟩ := hc.suffix
      obtain ⟨-, next, hx, -⟩ := hr
      exact ⟨next, hx⟩
    refine ⟨update (update m.heap.node x.1 (some ⟨x.2, some g.addr⟩)) g.addr
      (some ⟨e, none⟩), ?_, ?_⟩
    · rw [insertAtEnd, if_pos hg, hlast, hprev]
      show (m.heap.setNext x.1 (some g.addr) >>= _) = _
      rw [Heap.setNext, deref_of hx]
      show ((m.list.appended g.addr).counted.appendToIndex g _ e >>= _) = _
      rw [happend]
      rfl
    · have hfirst : m.list.firstElement ≠ none := by
        rw [Ne, hc.eq_none_iff]
        exact append_ne_nil_of_right_ne_nil _ (cons_ne_nil _ _)
      have hc' : Linked (update m.heap.node g.addr (some ⟨e, none⟩)) m.list.firstElement
          (c' ++ [x]) := hc.congr fun y hy => update_of_ne (hfree y hy) _ _
      rw [KList.appended, if_neg hfirst, update_comm hxp, append_assoc]
      apply hc'.relink hnew
      intro y hy
      rw [mem_singleton.mp hy]
      exact hxp.symm

theorem insertAtEnd_spec (hg : g.node = true) (hp : Primary m.list)
    (hc : Linked m.heap.node m.list.firstElement c) (hfree : ∀ x ∈ c, x.1 ≠ g.addr)
    (hlast : m.list.lastElement = prevOf none c) :
    ∃ node a mode, insertAtEnd m g e =
        .ok (⟨⟨node, update m.heap.block g.addr 1⟩,
          (m.list.appended g.addr).counted.reindexed a mode⟩, some e) ∧
      Primary ((m.list.appended g.addr).counted.reindexed a mode) ∧
      Linked node (m.list.appended g.addr).firstElement (c ++ [(g.addr, e)]) := by
  have hp' : Primary (m.list.appended g.addr) := ⟨hp.entries, hp.compare⟩
  obtain ⟨a, mode, ha, hpa⟩ := appendToIndex_spec hp' g e
  obtain ⟨node, hrun, hchain⟩ := insertAtEnd_eq hg hc hfree hlast ha
  exact ⟨node, a, mode, hrun, hpa, hchain⟩

theorem Linked.free {h : Heap ε} {p : Option ℕ} (hc : Linked h.node p c) {q : ℕ}
    (hq : ∀ x ∈ c, x.1 ≠ q) (hblock : h.block q = 1) :
    ∃ node, h.free q = .ok ⟨node, update h.block q 0⟩ ∧ Linked node p c := by
  refine ⟨fun x => if q ≤ x ∧ x < q + h.block q then none else h.node x, ?_, ?_⟩
  · rw [Heap.free, if_neg (by omega)]
  · apply hc.congr
    intro x hx
    have := hq x hx
    rw [if_neg (by omega)]

theorem NodeIn.ne {node : ℕ → Option (Node ε)} {l a b : List (ℕ × ε)} {q : ℕ} {n : Node ε}
    (h : NodeIn node l a b q n) {p : Option ℕ} (hl : Linked node p l) : ∀ x ∈ a ++ b, x.1 ≠ q := by
  intro x hx heq
  have hnodup := hl.nodup
  rw [h.split, map_append, map_cons, perm_middle.nodup_iff, nodup_cons] at hnodup
  apply hnodup.1
  rw [← map_append]
  exact mem_map.mpr ⟨x, hx, heq⟩

theorem freeNodes_spec {reused : ℕ → Option (Option ℕ)} {h : Heap ε} {p : Option ℕ}
    (hc : Linked h.node p c) {fuel : ℕ} (hfuel : c.length ≤ fuel)
    (hblock : ∀ x ∈ c, h.block x.1 = 1) (hreused : ∀ x ∈ c, reused x.1 = none) :
    ∃ h', freeNodes reused fuel h p = .ok h' := by
  induction c generalizing h p fuel with
  | nil =>
    obtain rfl : p = none := hc
    exact ⟨h, by rw [freeNodes]⟩
  | cons x c ih =>
    have hnodup := hc.nodup
    rw [map_cons, nodup_cons] at hnodup
    have hne : ∀ y ∈ c, y.1 ≠ x.1 := fun y hy heq => hnodup.1 (heq ▸ mem_map_of_mem hy)
    obtain ⟨rfl, next, hx, hnext⟩ := hc
    rw [length_cons] at hfuel
    obtain ⟨fuel, rfl⟩ : ∃ k, fuel = k + 1 := ⟨fuel - 1, by omega⟩
    obtain ⟨node, hfree, hl⟩ := hnext.free hne (hblock x (mem_cons_self ..))
    obtain ⟨h', hrest⟩ := ih (h := ⟨node, update h.block x.1 0⟩) hl
      (Nat.le_of_succ_le_succ hfuel)
      (fun y hy => (update_of_ne (hne y hy) _ _).trans
        (hblock y (mem_cons_of_mem _ hy)))
      (fun y hy => hreused y (mem_cons_of_mem _ hy))
    refine ⟨h', ?_⟩
    rw [freeNodes, deref_of hx]
    show (h.free x.1 >>= _) = _
    rw [hfree, hreused x (mem_cons_self ..)]
    exact hrest

variable [Inhabited ε]

theorem insertIntoList_eq (hg : g.node = true)
    (his : insertIndexes m.list.numberOfElements g e m.list.indexes = .ok is)
    (happend : (m.list.pushed g.addr is).counted.appendToIndex g m.list.numberOfElements e =
      .ok l') :
    insertIntoList m g e = .ok (⟨m.heap.alloc g.addr ⟨e, m.list.firstElement⟩, l'⟩, some e) := by
  rw [insertIntoList, if_pos hg, his]
  show ((m.list.pushed g.addr is).counted.appendToIndex g m.list.numberOfElements e >>= _) = _
  rw [happend]
  rfl

theorem insertIntoList_spec (hg : g.node = true) (hp : Primary m.list)
    (his : insertIndexes m.list.numberOfElements g e m.list.indexes = .ok is) :
    ∃ a mode, insertIntoList m g e =
        .ok (⟨m.heap.alloc g.addr ⟨e, m.list.firstElement⟩,
          (m.list.pushed g.addr is).counted.reindexed a mode⟩, some e) ∧
      Primary ((m.list.pushed g.addr is).counted.reindexed a mode) := by
  obtain ⟨a, mode, ha, hp'⟩ := appendToIndex_spec (hp.pushed g.addr is) g e
  exact ⟨a, mode, insertIntoList_eq hg his ha, hp'⟩

theorem insertIntoListSorted_eq (hg : g.node = true)
    (his : insertIndexes m.list.numberOfElements g e m.list.indexes = .ok is)
    (hinsert : (m.list.pushed g.addr is).sortedInsert
      (m.heap.alloc g.addr ⟨e, m.list.firstElement⟩) g e = .ok l') :
    insertIntoListSorted m g e =
      .ok (⟨m.heap.alloc g.addr ⟨e, m.list.firstElement⟩, l'⟩, some e) := by
  rw [insertIntoListSorted, if_pos hg, his]
  show ((m.list.pushed g.addr is).sortedInsert _ g e >>= _) = _
  rw [hinsert]
  rfl

theorem insertIntoListSorted_spec (hg : g.node = true) (hp : Primary m.list)
    (hc : Linked m.heap.node m.list.firstElement c) (hlen : m.list.numberOfElements = c.length)
    (hfree : ∀ x ∈ c, x.1 ≠ g.addr)
    (his : insertIndexes m.list.numberOfElements g e m.list.indexes = .ok is) :
    ∃ a mode, insertIntoListSorted m g e =
        .ok (⟨m.heap.alloc g.addr ⟨e, m.list.firstElement⟩,
          (m.list.pushed g.addr is).counted.reindexed a mode⟩, some e) ∧
      Primary ((m.list.pushed g.addr is).counted.reindexed a mode) := by
  have hlen' : m.list.numberOfElements + 1 = ((g.addr, e) :: c).length := by
    rw [length_cons, hlen]
  have hc' : Linked (m.heap.alloc g.addr ⟨e, m.list.firstElement⟩).node
      (m.list.pushed g.addr is).firstElement ((g.addr, e) :: c) := hc.cons hfree
  obtain ⟨a, mode, ha, hp'⟩ := sortedInsert_spec (hp.pushed g.addr is) hc' hlen' g e
  exact ⟨a, mode, insertIntoListSorted_eq hg his ha, hp'⟩

variable [DecidableEq ε]

def KList.shrunk (l : KList ε) (first last : Option ℕ) (is : List (Option (Index ε))) : KList ε :=
  { l with
    firstElement := first
    lastElement := last
    indexes := is
    numberOfElements := l.numberOfElements - 1
    elementList := if l.isIndexed then none else l.elementList
    indexMode := .notIndexed }

def Removes (m : Mem ε) (a b : List (ℕ × ε)) (q : ℕ) (e : ε) (is : List (Option (Index ε)))
    (r : Except Fault (Mem ε × Removed ε)) : Prop :=
  ∃ node first, r = .ok (⟨⟨node, Function.update m.heap.block q 0⟩,
      m.list.shrunk first (if m.list.lastElement = some q then prevOf none a
        else m.list.lastElement) is⟩, .data e) ∧
    Linked node first (a ++ b)

section

variable {a b : List (ℕ × ε)} {q : ℕ} {n : Node ε} (hc : Linked m.heap.node m.list.firstElement c)
  (hin : NodeIn m.heap.node c a b q n) (hblock : m.heap.block q = 1)
  (his : deleteIndexes m.list.numberOfElements g n.element m.list.indexes = .ok is)

include hc hin hblock his

theorem dropFound_spec :
    Removes m a b q n.element is (dropFound m g (some (prevOf none a, q, n))) := by
  obtain ⟨node, first, hunlink, hl⟩ := unlink_spec hc hin
  obtain ⟨node', hfree, hl'⟩ := hl.free (h := ⟨node, m.heap.block⟩) (hin.ne hc) hblock
  refine ⟨node', first, ?_, hl'⟩
  rw [dropFound, hunlink]
  show (Heap.free ⟨node, m.heap.block⟩ q >>= _) = _
  rw [hfree]
  show (deleteIndexes m.list.numberOfElements g n.element m.list.indexes >>= _) = _
  rw [his]
  rfl

theorem dropNth_spec :
    Removes m a b q n.element is (dropNth m g (some (prevOf none a, q, n))) := by
  obtain ⟨node, first, hunlink, hl⟩ := unlink_spec hc hin
  obtain ⟨node', hfree, hl'⟩ := hl.free (h := ⟨node, m.heap.block⟩) (hin.ne hc) hblock
  refine ⟨node', first, ?_, hl'⟩
  rw [dropNth, hunlink]
  show (deleteIndexes m.list.numberOfElements g n.element m.list.indexes >>= _) = _
  rw [his]
  show (Heap.free ⟨node, m.heap.block⟩ q >>= _) = _
  rw [hfree]
  rfl

end

theorem removeElement_spec {v : ε} {search : ε → ℤ} (hsearch : m.list.search v = .ok search)
    (hc : Linked m.heap.node m.list.firstElement c) (hlen : m.list.numberOfElements = c.length) :
    (removeElement m g v = .ok (m, .absent) ∧ ∀ x ∈ c, search x.2 ≠ 0) ∨
    (∃ a b q n, NodeIn m.heap.node c a b q n ∧ search n.element = 0 ∧ (∀ x ∈ a, search x.2 ≠ 0) ∧
      removeElement m g v = dropFound m g (some (prevOf none a, q, n))) := by
  have hwalk : removeElement m g v =
      (findNode m.heap search m.list.numberOfElements none m.list.firstElement >>=
        dropFound m g) := by
    rw [removeElement, hsearch]
    rfl
  rcases findNode_spec search hc (Nat.le_of_eq hlen.symm) none with
    ⟨hres, hall⟩ | ⟨a, b, q, n, hres, hin, hmatch, hall⟩
  · refine .inl ⟨?_, hall⟩
    rw [hwalk, hres]
    rfl
  · refine .inr ⟨a, b, q, n, hin, hmatch, hall, ?_⟩
    rw [hwalk, hres]
    rfl

theorem removeNth_spec {nth : ℤ} (hnth : 1 ≤ nth)
    (hc : Linked m.heap.node m.list.firstElement c) :
    (removeNth m g nth = .ok (m, .absent) ∧ c.length ≤ nth.toNat - 1) ∨
    (∃ a b q n, NodeIn m.heap.node c a b q n ∧ a.length = nth.toNat - 1 ∧
      removeNth m g nth = dropNth m g (some (prevOf none a, q, n))) := by
  have hwalk : removeNth m g nth =
      (findNth m.heap (nth.toNat - 1) none m.list.firstElement >>= dropNth m g) := by
    rw [removeNth, if_neg (Int.not_lt.mpr hnth)]
  rcases findNth_spec hc (nth.toNat - 1) none with ⟨hres, hlen⟩ | ⟨a, b, q, n, hres, hin, hlen⟩
  · refine .inl ⟨?_, hlen⟩
    rw [hwalk, hres]
    rfl
  · refine .inr ⟨a, b, q, n, hin, hlen, ?_⟩
    rw [hwalk, hres]
    rfl

end Operations

end Ovlfs
