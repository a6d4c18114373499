import Mathlib.Data.Finset.Card
import ReadingComment.Weighttp.Machine
import ReadingComment.Weighttp.ParserEffects

/-!
# The books of a worker

A request that was started is either one that a client works on or was counted, once.
The invariant says this with the numbers of the requests, and with it what makes it
go through: a client in its first state has no watcher that could call it, and the
reference to the loop is given back with the last request.
-/

namespace Weighttp

open Function

/-! ## The books -/

/-- The books of a worker with a set of clients that work on requests: a request that was started
was counted once, or one of these clients works on it. -/
structure Worker.Books (w : Worker) (s : Finset ℕ) : Prop where
  ended : w.stats.reqDone = w.stats.reqSuccess + w.stats.reqFailed
  bound : w.stats.reqStarted ≤ w.stats.reqTodo
  length : w.counted.length = w.stats.reqDone
  once : (w.counted : Multiset ℕ) + s.val.map w.serial = Multiset.range w.stats.reqStarted

/-- The reference to the loop is given back with the last request. -/
def Worker.Holding (w : Worker) : Prop :=
  w.refs = if 0 < w.stats.reqTodo ∧ w.stats.reqDone = w.stats.reqTodo then 0 else 1

/-- Nothing is written into the books. -/
structure Worker.SameBooks (w w' : Worker) : Prop where
  stats : w.stats.SameRequests w'.stats
  counted : w'.counted = w.counted
  serial : w'.serial = w.serial
  refs : w'.refs = w.refs

namespace Worker

variable {w w' : Worker} {s : Finset ℕ} {i : ℕ}

theorem Books.congr (h : w.Books s) (hsame : w.SameBooks w') : w'.Books s := by
  obtain ⟨⟨htodo, hstarted, hdone, hsuccess, hfailed⟩, hcounted, hserial, -⟩ := hsame
  refine ⟨?_, ?_, ?_, ?_⟩
  · rw [hdone, hsuccess, hfailed, h.ended]
  · rw [hstarted, htodo]
    exact h.bound
  · rw [hcounted, hdone, h.length]
  · rw [hcounted, hserial, hstarted]
    exact h.once

theorem Holding.congr (h : w.Holding) (hsame : w.SameBooks w') : w'.Holding := by
  rw [Holding, hsame.refs, hsame.stats.todo, hsame.stats.done]
  exact h

theorem Books.started (h : w.Books s) : w.stats.reqStarted = w.stats.reqDone + s.card := by
  have hcard := congrArg Multiset.card h.once
  rw [Multiset.card_add, Multiset.card_map, Multiset.card_range, Multiset.coe_card, h.length]
    at hcard
  exact hcard.symm

theorem Books.done_lt (h : w.Books s) (hi : i ∈ s) : w.stats.reqDone < w.stats.reqStarted := by
  rw [h.started]
  exact Nat.lt_add_of_pos_right (Finset.card_pos.mpr ⟨i, hi⟩)

theorem Books.start (h : w.Books s) (hi : i ∉ s) (hlt : w.stats.reqStarted < w.stats.reqTodo) :
    (w.atStart i).Books (insert i s) := by
  have hothers : s.val.map (update w.serial i w.stats.reqStarted) =
      s.val.map w.serial := by
    apply Multiset.map_congr rfl
    intro j hj
    apply update_of_ne
    rintro rfl
    exact hi hj
  refine ⟨h.ended, hlt, h.length, ?_⟩
  show (w.counted : Multiset ℕ) + (insert i s).val.map (update w.serial i _) =
    Multiset.range (w.stats.reqStarted + 1)
  rw [Finset.insert_val_of_notMem hi, Multiset.map_cons, update_self, hothers,
    Multiset.range_succ, ← h.once, Multiset.add_cons]

theorem countDone_spec (c : Conn) :
    (countDone c).reqTodo = c.stats.reqTodo ∧ (countDone c).reqStarted = c.stats.reqStarted ∧
      (countDone c).reqDone = c.stats.reqDone + 1 ∧
      (countDone c).reqSuccess + (countDone c).reqFailed =
        c.stats.reqSuccess + c.stats.reqFailed + 1 := by
  rw [countDone]
  split
  · exact ⟨rfl, rfl, rfl, Nat.add_right_comm _ _ _⟩
  · exact ⟨rfl, rfl, rfl, rfl⟩

theorem Books.count (h : w.Books s) (hi : i ∈ s) : (w.count i).Books (s.erase i) := by
  obtain ⟨htodo, hstarted, hdone, hsum⟩ := countDone_spec (w.conn i)
  refine ⟨?_, ?_, ?_, ?_⟩
  · show (countDone (w.conn i)).reqDone = _
    rw [hdone]
    exact (congrArg (· + 1) h.ended).trans hsum.symm
  · show (countDone (w.conn i)).reqStarted ≤ (countDone (w.conn i)).reqTodo
    rw [hstarted, htodo]
    exact h.bound
  · show (w.serial i :: w.counted).length = (countDone (w.conn i)).reqDone
    rw [hdone, List.length_cons, h.length]
    rfl
  · show ((w.serial i :: w.counted : List ℕ) : Multiset ℕ) + (s.erase i).val.map w.serial =
      Multiset.range (countDone (w.conn i)).reqStarted
    rw [hstarted, ← Multiset.cons_coe, Multiset.cons_add, ← Multiset.add_cons, ← Multiset.map_cons,
      ← Finset.insert_val_of_notMem (Finset.notMem_erase i s), Finset.insert_erase hi]
    exact h.once

theorem Holding.refs_eq (h : w.Holding) (hlt : w.stats.reqDone < w.stats.reqTodo) : w.refs = 1 := by
  rw [h, if_neg fun h => Nat.ne_of_lt hlt h.2]

/-! ## Who works on a request -/

/-- The clients that work on a request: those that are not in their first state, and the one whose
state machine runs. -/
def working (w : Worker) : Finset ℕ :=
  (Finset.range w.numClients).filter fun j =>
    (w.client j).state ≠ .start ∨ w.busy.map Prod.fst = some j

theorem mem_working {j : ℕ} : j ∈ w.working ↔ j < w.numClients ∧
    ((w.client j).state ≠ .start ∨ w.busy.map Prod.fst = some j) := by
  rw [working, Finset.mem_filter, Finset.mem_range]

def Alone (w : Worker) (i : ℕ) : Prop := w.busy = none ∨ w.busy.map Prod.fst = some i

/-- The other clients are the same. -/
structure OnlyClient (w w' : Worker) (i : ℕ) : Prop where
  num : w'.numClients = w.numClients
  phase : w'.phase = w.phase
  others : ∀ j, j ≠ i → w'.client j = w.client j

theorem Alone.fst_eq {j : ℕ} (h : w.Alone i) (hj : w.busy.map Prod.fst = some j) : j = i := by
  rcases h with hnone | hsome
  · rw [hnone] at hj
    cases hj
  · exact Option.some.inj (hj.symm.trans hsome)

section

variable (h : w.Alone i) (h' : w'.Alone i) (ho : w.OnlyClient w' i)

include h h' ho

theorem mem_working_iff_of_ne {j : ℕ} (hj : j ≠ i) : j ∈ w'.working ↔ j ∈ w.working := by
  have hbusy : w.busy.map Prod.fst ≠ some j := fun heq => hj (h.fst_eq heq)
  have hbusy' : w'.busy.map Prod.fst ≠ some j := fun heq => hj (h'.fst_eq heq)
  rw [mem_working, mem_working, ho.num, ho.others j hj, or_iff_left hbusy, or_iff_left hbusy']

theorem working_eq (hi : i ∈ w'.working ↔ i ∈ w.working) : w'.working = w.working := by
  ext j
  rcases eq_or_ne j i with rfl | hj
  · exact hi
  · exact mem_working_iff_of_ne h h' ho hj

theorem working_insert (hi : i ∈ w'.working) : w'.working = insert i w.working := by
  ext j
  rw [Finset.mem_insert]
  rcases eq_or_ne j i with rfl | hj
  · exact ⟨fun _ => .inl rfl, fun _ => hi⟩
  · rw [or_iff_right hj]
    exact mem_working_iff_of_ne h h' ho hj

theorem working_erase (hi : i ∉ w'.working) : w'.working = w.working.erase i := by
  ext j
  rw [Finset.mem_erase]
  rcases eq_or_ne j i with rfl | hj
  · exact ⟨fun h => absurd h hi, fun h => absurd rfl h.1⟩
  · rw [and_iff_right hj]
    exact mem_working_iff_of_ne h h' ho hj

end

/-! ## The invariant -/

def Talking (w : Worker) (i : ℕ) : Prop :=
  w.busy = some (i, .write) ∨ w.busy = some (i, .read) → (w.client i).state ≠ .start

/-- **The invariant**: the books are in order, and a client that works on no request has no active
watcher; those that were not launched yet do not work. -/
structure Inv (w : Worker) : Prop where
  books : w.Books w.working
  holding : w.Holding
  idle : ∀ j, (w.client j).state = .start → w.busy.map Prod.fst ≠ some j →
    (w.client j).watched = false
  fresh : ∀ k, w.phase = .starting k → ∀ j, k ≤ j → (w.client j).state = .start
  inside : ∀ j c, w.busy = some (j, c) → j < w.numClients ∧ ∀ k, w.phase = .starting k → j < k
  talking : ∀ j, w.Talking j
  stop : w.phase = .stopped → w.busy = none ∧ w.stats.reqDone = w.stats.reqTodo

namespace Inv

theorem launched (h : w.Inv) (hi : i ∈ w.working) {k : ℕ} (hk : w.phase = .starting k) : i < k := by
  rcases (mem_working.mp hi).2 with hstate | hbusy
  · by_contra hle
    exact hstate (h.fresh k hk i (Nat.not_lt.mp hle))
  · obtain ⟨⟨j, c⟩, hb, hj⟩ := Option.map_eq_some_iff.mp hbusy
    obtain rfl : j = i := hj
    exact (h.inside j c hb).2 k hk

theorem not_stopped (h : w.Inv) (hi : i ∈ w.working) : w.phase ≠ .stopped := by
  intro hstop
  have hlt := h.books.done_lt hi
  have hle := h.books.bound
  have heq := (h.stop hstop).2
  omega

theorem of_step (h : w.Inv) (ha : w.Alone i) (ha' : w'.Alone i) (ho : w.OnlyClient w' i)
    (hin : i < w.numClients) (hlaunched : ∀ k, w.phase = .starting k → i < k)
    (hphase : w.phase ≠ .stopped) (hbooks : w'.Books w'.working) (hholding : w'.Holding)
    (hidle : (w'.client i).state = .start → w'.busy.map Prod.fst ≠ some i →
      (w'.client i).watched = false) (htalking : w'.Talking i) : w'.Inv := by
  refine ⟨hbooks, hholding, ?_, ?_, ?_, ?_, ?_⟩
  · intro j hstate hbusy
    rcases eq_or_ne j i with rfl | hj
    · exact hidle hstate hbusy
    · rw [ho.others j hj] at hstate ⊢
      exact h.idle j hstate fun heq => hj (ha.fst_eq heq)
  · intro k hk j hkj
    rw [ho.phase] at hk
    have hj : j ≠ i := Nat.ne_of_gt (Nat.lt_of_lt_of_le (hlaunched k hk) hkj)
    rw [ho.others j hj]
    exact h.fresh k hk j hkj
  · intro j c hb
    have hj : j = i := ha'.fst_eq (by rw [hb]; rfl)
    rw [hj, ho.num, ho.phase]
    exact ⟨hin, hlaunched⟩
  · intro j hb
    have hj : j = i := ha'.fst_eq (by rcases hb with hb | hb <;> rw [hb] <;> rfl)
    rw [hj] at hb ⊢
    exact htalking hb
  · intro hstop
    rw [ho.phase] at hstop
    exact absurd hstop hphase

theorem quiet (h : w.Inv) (ha : w.Alone i) (ha' : w'.Alone i) (ho : w.OnlyClient w' i)
    (hi : i ∈ w.working) (hi' : i ∈ w'.working) (hsame : w.SameBooks w')
    (htalking : w'.Talking i) : w'.Inv := by
  refine h.of_step ha ha' ho (mem_working.mp hi).1 (fun k hk => h.launched hi hk)
    (h.not_stopped hi) ?_ (h.holding.congr hsame) ?_ htalking
  · rw [working_eq ha ha' ho (iff_of_true hi' hi)]
    exact h.books.congr hsame
  · intro hstate hbusy
    exact absurd (mem_working.mp hi').2 (not_or.mpr ⟨fun hne => hne hstate, hbusy⟩)

theorem atStart (h : w.Inv) (ha : w.Alone i) (hi : i ∉ w.working) (hin : i < w.numClients)
    (hlaunched : ∀ k, w.phase = .starting k → i < k) (hphase : w.phase ≠ .stopped)
    (hlt : w.stats.reqStarted < w.stats.reqTodo) : (w.atStart i).Inv := by
  have hi' : i ∈ (w.atStart i).working := mem_working.mpr ⟨hin, .inr rfl⟩
  have ho : w.OnlyClient (w.atStart i) i := ⟨rfl, rfl, fun _ _ => rfl⟩
  refine h.of_step ha (.inr rfl) ho hin hlaunched hphase ?_ h.holding ?_
    fun hb => by rcases hb with hb | hb <;> cases hb
  · rw [working_insert ha (.inr rfl) ho hi']
    exact h.books.start hi hlt
  · exact fun _ hbusy => absurd rfl hbusy

end Inv

theorem rest_client (w : Worker) (i : ℕ) :
    (((w.count i).rest i).client i).state = .start ∧
      (((w.count i).rest i).client i).watched = false := by
  have hclient : ((w.count i).rest i).client i = (clientReset w.cfg
      ⟨(w.count i).stats, { w.client i with keepalive := false }⟩).client :=
    update_self ..
  rw [hclient]
  exact ⟨rfl, rfl⟩

theorem rest_refs (w : Worker) (i : ℕ) :
    ((w.count i).rest i).refs =
      if (countDone (w.conn i)).reqDone = (countDone (w.conn i)).reqTodo then w.refs - 1
      else w.refs := rfl

theorem Inv.rest (h : w.Inv) (ha : w.Alone i) (hi : i ∈ w.working) :
    ((w.count i).rest i).Inv := by
  obtain ⟨hstate, hwatched⟩ := rest_client w i
  have ha' : ((w.count i).rest i).Alone i := .inl rfl
  have ho : w.OnlyClient ((w.count i).rest i) i :=
    ⟨rfl, rfl, fun j hj => update_of_ne hj _ _⟩
  have hi' : i ∉ ((w.count i).rest i).working := by
    intro hmem
    rcases (mem_working.mp hmem).2 with hne | hbusy
    · exact hne hstate
    · cases hbusy
  refine h.of_step ha ha' ho (mem_working.mp hi).1 (fun k hk => h.launched hi hk)
    (h.not_stopped hi) ?_ ?_ (fun _ _ => hwatched)
    fun hb => by rcases hb with hb | hb <;> cases hb
  · rw [working_erase ha ha' ho hi']
    obtain ⟨hended, hbound, hlength, honce⟩ := h.books.count hi
    exact ⟨hended, hbound, hlength, honce⟩
  · obtain ⟨htodo, -, hdone, -⟩ := countDone_spec (w.conn i)
    have hlt : w.stats.reqDone < w.stats.reqTodo :=
      Nat.lt_of_lt_of_le (h.books.done_lt hi) h.books.bound
    have hpos : 0 < w.stats.reqTodo := Nat.zero_lt_of_lt hlt
    have hrefs := h.holding.refs_eq hlt
    show ((w.count i).rest i).refs = if 0 < (countDone (w.conn i)).reqTodo ∧
      (countDone (w.conn i)).reqDone = (countDone (w.conn i)).reqTodo then 0 else 1
    rw [rest_refs, hrefs, htodo]
    split
    · rename_i heq
      rw [if_pos ⟨hpos, heq⟩]
      rfl
    · rename_i hne
      rw [if_neg fun h => hne h.2]

variable {c : Conn}

theorem clientReset_alive (cfg : Config) (h : c.client.keepalive = true) :
    (clientReset cfg c).stats = { c.stats with reqStarted := c.stats.reqStarted + 1 } := if_pos h

theorem clientReset_closed (cfg : Config) (h : ¬ c.client.keepalive = true) :
    (clientReset cfg c).stats = c.stats := if_neg h

theorem again_stats (w : Worker) (i : ℕ) :
    (w.again i).stats = { w.stats with reqStarted := w.stats.reqStarted + 1 } := by
  rw [again]
  split
  · rename_i hkeep
    exact clientReset_alive w.cfg hkeep
  · rename_i hkeep
    show { (clientReset w.cfg (w.conn i)).stats with
      reqStarted := (clientReset w.cfg (w.conn i)).stats.reqStarted + 1 } = _
    rw [clientReset_closed w.cfg hkeep]
    rfl

theorem again_busy (w : Worker) (i : ℕ) :
    (w.again i).busy = some (i, .write) ∨ (w.again i).busy = some (i, .socket) := by
  rw [again]
  split
  · exact .inl rfl
  · exact .inr rfl

theorem again_talking (w : Worker) (i : ℕ) : (w.again i).Talking i := by
  rw [again]
  split
  · rename_i hkeep
    intro _
    show (update w.client i (clientReset w.cfg (w.conn i)).client i).state ≠ _
    rw [update_self]
    show (if (w.conn i).client.keepalive then ClientState.writing else .start) ≠ .start
    rw [if_pos hkeep]
    exact nofun
  · intro hb
    rcases hb with hb | hb <;> cases hb

theorem again_same (w : Worker) (i : ℕ) : (w.atStart i).SameBooks (w.again i) := by
  have hstats : (w.again i).stats = (w.atStart i).stats := again_stats w i
  refine ⟨?_, ?_, ?_, ?_⟩
  · rw [hstats]
    exact .refl _
  · rw [again]
    split <;> rfl
  · rw [again]
    split
    · rfl
    · rename_i hkeep
      show update w.serial i (clientReset w.cfg (w.conn i)).stats.reqStarted = _
      rw [clientReset_closed w.cfg hkeep]
      rfl
  · rw [again]
    split <;> rfl

theorem again_onlyClient (w : Worker) (i : ℕ) : w.OnlyClient (w.again i) i := by
  rw [again]
  split
  · exact ⟨rfl, rfl, fun j hj => update_of_ne hj _ _⟩
  · exact ⟨rfl, rfl, fun j hj => update_of_ne hj _ _⟩

theorem Inv.again (h : w.Inv) (ha : w.Alone i) (hi : i ∈ w.working)
    (hne : w.stats.reqStarted ≠ w.stats.reqTodo) : ((w.count i).again i).Inv := by
  obtain ⟨htodo, hstarted, hdone, -⟩ := countDone_spec (w.conn i)
  have hlt : w.stats.reqStarted < w.stats.reqTodo := Nat.lt_of_le_of_ne h.books.bound hne
  have hdlt := h.books.done_lt hi
  have hsame := again_same (w.count i) i
  have hbusy : ((w.count i).again i).busy.map Prod.fst = some i := by
    rcases again_busy (w.count i) i with hb | hb <;> rw [hb] <;> rfl
  have ho : w.OnlyClient ((w.count i).again i) i := by
    obtain ⟨hnum, hphase, hothers⟩ := again_onlyClient (w.count i) i
    exact ⟨hnum, hphase, hothers⟩
  have hi' : i ∈ ((w.count i).again i).working :=
    mem_working.mpr ⟨ho.num ▸ (mem_working.mp hi).1, .inr hbusy⟩
  refine h.of_step ha (.inr hbusy) ho (mem_working.mp hi).1 (fun k hk => h.launched hi hk)
    (h.not_stopped hi) ?_ ?_ (fun _ hb => absurd hbusy hb) (again_talking (w.count i) i)
  · rw [working_eq ha (.inr hbusy) ho (iff_of_true hi' hi)]
    have hbooks : ((w.count i).atStart i).Books (insert i (w.working.erase i)) := by
      apply (h.books.count hi).start (Finset.notMem_erase i _)
      show (countDone (w.conn i)).reqStarted < (countDone (w.conn i)).reqTodo
      rw [htodo, hstarted]
      exact hlt
    rw [Finset.insert_erase hi] at hbooks
    exact hbooks.congr hsame
  · -- another request has just been started, so this was not the last one
    apply Holding.congr ?_ hsame
    have hrefs := h.holding.refs_eq (Nat.lt_trans hdlt hlt)
    show w.refs = if 0 < (countDone (w.conn i)).reqTodo ∧
      (countDone (w.conn i)).reqDone = (countDone (w.conn i)).reqTodo then 0 else 1
    rw [hrefs, htodo, hdone, if_neg]
    rintro ⟨-, heq⟩
    exact Nat.ne_of_lt (Nat.lt_of_le_of_lt hdlt hlt) heq

theorem Inv.atEnd (h : w.Inv) (ha : w.Alone i) (hi : i ∈ w.working) : (w.atEnd i).Inv := by
  rw [Worker.atEnd]
  split
  · exact h.rest ha hi
  · rename_i hne
    exact h.again ha hi hne

theorem working_put {b : Option (ℕ × SysCall)} (hi : i ∈ w.working)
    (hstate : c.client.state ≠ .start) : i ∈ { w.put i c with busy := b }.working := by
  apply mem_working.mpr
  refine ⟨(mem_working.mp hi).1, .inl ?_⟩
  show (update w.client i c.client i).state ≠ _
  rw [update_self]
  exact hstate

section

variable (h : w.Inv) (ha : w.Alone i) (hi : i ∈ w.working)

include h ha hi

theorem Inv.put (hc : w.stats.SameRequests c.stats) (hstate : c.client.state ≠ .start) :
    (w.put i c).Inv :=
  h.quiet ha ha ⟨rfl, rfl, fun _ hj => update_of_ne hj _ _⟩ hi
    (working_put (b := w.busy) hi hstate) ⟨hc, rfl, rfl, rfl⟩ fun _ => by
      show (update w.client i c.client i).state ≠ _
      rw [update_self]
      exact hstate

theorem Inv.calls {c : SysCall} (hc : c = .write ∨ c = .read → (w.client i).state ≠ .start) :
    (w.calls i c).Inv :=
  h.quiet ha (.inr rfl) ⟨rfl, rfl, fun _ _ => rfl⟩ hi
    (mem_working.mpr ⟨(mem_working.mp hi).1, .inr rfl⟩) ⟨.refl _, rfl, rfl, rfl⟩
    fun hb => hc (hb.imp (fun h => (Prod.mk.inj (Option.some.inj h)).2)
      fun h => (Prod.mk.inj (Option.some.inj h)).2)

theorem Inv.returns (hstate : (w.client i).state ≠ .start) : w.returns.Inv :=
  h.quiet ha (.inl rfl) ⟨rfl, rfl, fun _ _ => rfl⟩ hi
    (mem_working.mpr ⟨(mem_working.mp hi).1, .inl hstate⟩) ⟨.refl _, rfl, rfl, rfl⟩
    fun _ => hstate

theorem Inv.atError : (w.atError i).Inv := by
  have hstate : (clientError (w.conn i)).client.state ≠ .start := nofun
  exact (h.put ha hi ⟨rfl, rfl, rfl, rfl, rfl⟩ hstate).atEnd ha
    (working_put (b := w.busy) hi hstate)

end

/-! ## Steps -/

theorem busy_alone {c : SysCall} (hb : w.busy = some (i, c)) : w.Alone i := by
  refine .inr ?_
  rw [hb]
  rfl

theorem Inv.busy_working {c : SysCall} (h : w.Inv) (hb : w.busy = some (i, c)) : i ∈ w.working := by
  apply mem_working.mpr
  refine ⟨(h.inside i c hb).1, .inr ?_⟩
  rw [hb]
  rfl

section

variable (h : w.Inv) (ha : w.Alone i) (hi : i ∈ w.working)

include h ha hi

theorem Inv.enter (hstate : (w.client i).state ≠ .start) : (w.enter i).Inv := by
  rw [Worker.enter]
  split
  · rename_i heq
    exact absurd heq hstate
  · exact h.calls ha hi fun _ => hstate
  · exact h.calls ha hi fun _ => hstate
  · exact h.calls ha hi fun _ => hstate
  · exact h.atError ha hi
  · exact h.atEnd ha hi

theorem Inv.putClient {c : Client} (hstate : c.state ≠ .start) :
    (w.putClient i c).Inv ∧ i ∈ (w.putClient i c).working ∧
      ((w.putClient i c).client i).state ≠ .start := by
  refine ⟨h.put (c := ⟨w.stats, c⟩) ha hi (.refl _) hstate,
    working_put (c := ⟨w.stats, c⟩) (b := w.busy) hi hstate, ?_⟩
  show (update w.client i c i).state ≠ _
  rw [update_self]
  exact hstate

theorem Inv.watch :
    ((w.putClient i { w.client i with watched := true }).calls i (.connect true)).Inv :=
  h.quiet ha (.inr rfl) ⟨rfl, rfl, fun _ hj => update_of_ne hj _ _⟩ hi
    (mem_working.mpr ⟨(mem_working.mp hi).1, .inr rfl⟩) ⟨.refl _, rfl, rfl, rfl⟩
    fun hb => by rcases hb with hb | hb <;> cases hb

theorem Inv.connected (first : Bool) {state : ClientState} (hstate : state ≠ .start) :
    (w.connected i first state).Inv := by
  obtain ⟨hinv, hmem, hstate'⟩ :=
    h.putClient (c := { w.client i with state := state }) ha hi hstate
  cases first with
  | false => exact hinv.calls ha hmem fun _ => hstate'
  | true => exact hinv.returns ha hmem hstate'

theorem Inv.sent (hstate : (w.client i).state ≠ .start) (n : ℕ) : (w.sent i n).Inv := by
  have hnext : (if (w.client i).requestOffset + n = w.cfg.requestSize then ClientState.reading
      else (w.client i).state) ≠ .start := by
    split
    · exact nofun
    · exact hstate
  obtain ⟨hinv, hmem, hstate'⟩ := h.putClient (c := { w.client i with
    requestOffset := (w.client i).requestOffset + n
    state := if (w.client i).requestOffset + n = w.cfg.requestSize then .reading
      else (w.client i).state }) ha hi hnext
  exact hinv.returns ha hmem hstate'

theorem Inv.readFailed (text : List Char) :
    (w.readFailed i text).Inv := by
  have hstate : ClientState.error ≠ .start := nofun
  exact (h.putClient ha hi hstate).1

end

theorem disconnected_state (c : Client) : (disconnected c).state ≠ .start := by
  rw [disconnected]
  split
  · exact nofun
  · exact nofun

theorem Inv.readNothing (h : w.Inv) (ha : w.Alone i) (hi : i ∈ w.working) :
    (w.readNothing i).Inv := by
  obtain ⟨hinv, hmem, -⟩ := h.putClient ha hi (disconnected_state (w.client i))
  simp only [Worker.readNothing]
  split
  · exact hinv.atEnd ha hmem
  · exact hinv.atError ha hmem

theorem Inv.readBytes (h : w.Inv) (ha : w.Alone i) (hi : i ∈ w.working)
    (hstate : (w.client i).state ≠ .start) {bytes : List Char}
    (hw : w.readBytes i bytes = .ok w') : w'.Inv := by
  cases hr : received w.cfg bytes (w.conn i) with
  | error e =>
    rw [Worker.readBytes, hr] at hw
    cases hw
  | ok r =>
    obtain ⟨c, ok⟩ := r
    obtain ⟨hstats, honward, hfailed, -⟩ := received_kept hr
    have hc : c.client.state ≠ .start := by
      cases ok with
      | false =>
        rw [hfailed rfl]
        exact nofun
      | true =>
        rcases honward rfl with hsame | hdone
        · rw [hsame]
          exact hstate
        · rw [hdone]
          exact nofun
    have hinv := h.put ha hi hstats hc
    have hmem := working_put (b := w.busy) hi hc
    rw [Worker.readBytes, hr] at hw
    cases hw
    cases ok with
    | false => exact hinv.atError ha hmem
    | true =>
      simp only [if_true]
      split
      · exact hinv.atEnd ha hmem
      · refine hinv.returns ha hmem ?_
        show (update w.client i c.client i).state ≠ _
        rw [update_self]
        exact hc

theorem Inv.answer (h : w.Inv) {a : Answer} (hw : w.answer a = .ok w') : w'.Inv := by
  cases hb : w.busy with
  | none =>
    rw [Worker.answer, hb] at hw
    cases hw
    exact h
  | some b =>
    obtain ⟨i, c⟩ := b
    have ha := busy_alone hb
    have hi := h.busy_working hb
    rw [Worker.answer, hb] at hw
    cases c with
    | socket =>
      simp only at hw
      split at hw <;> cases hw
      · exact h
      · exact h.atError ha hi
      · exact h.watch ha hi
    | connect first =>
      simp only at hw
      split at hw <;> cases hw
      · exact h.connected ha hi first nofun
      · exact h
      · exact h.atError ha hi
      · exact h.connected ha hi first nofun
      · exact h.connected ha hi first nofun
    | write =>
      have hstate := h.talking i (.inl hb)
      simp only at hw
      split at hw <;> cases hw
      · exact h
      · exact h.atError ha hi
      · have hdone : ClientState.atEnd ≠ .start := nofun
        obtain ⟨hinv, hmem, -⟩ :=
          h.putClient (c := { w.client i with state := .atEnd }) ha hi hdone
        exact hinv.atEnd ha hmem
      · exact h.sent ha hi hstate _
    | read =>
      have hstate := h.talking i (.inr hb)
      simp only at hw
      split at hw
      · cases hw
        exact h
      · cases hw
        exact h.readFailed ha hi _
      · cases hw
        exact h.readNothing ha hi
      · exact h.readBytes ha hi hstate hw

theorem Inv.launch (h : w.Inv) (hb : w.busy = none) (hphase : w.phase = .starting i) :
    (w.launch i).Inv := by
  rw [Worker.launch]
  split
  · rename_i hin
    -- the client is the next one to be launched
    have hnext : { w with phase := .starting (i + 1) }.Inv := by
      obtain ⟨hbooks, hholding, hidle, hfresh, -, htalking, -⟩ := h
      refine ⟨⟨hbooks.ended, hbooks.bound, hbooks.length, hbooks.once⟩, hholding, hidle, ?_, ?_,
        htalking, nofun⟩
      · intro k hk j hkj
        obtain rfl := Phase.starting.inj hk
        exact hfresh i hphase j (Nat.le_of_succ_le hkj)
      · intro j c hj
        rw [show w.busy = some (j, c) from hj] at hb
        cases hb
    have hstate := h.fresh i hphase i (Nat.le_refl i)
    have hnot : i ∉ w.working := by
      intro hmem
      rcases (mem_working.mp hmem).2 with hne | hbusy
      · exact hne hstate
      · rw [hb] at hbusy
        cases hbusy
    simp only
    split
    · rename_i hlt
      rw [Worker.enter]
      simp only [hstate]
      refine hnext.atStart (.inl hb) hnot hin ?_ nofun hlt
      intro k hk
      rw [← Phase.starting.inj hk]
      exact Nat.lt_succ_self i
    · exact hnext
  · obtain ⟨hbooks, hholding, hidle, -, hinside, htalking, -⟩ := h
    refine ⟨⟨hbooks.ended, hbooks.bound, hbooks.length, hbooks.once⟩, hholding, hidle, nofun, ?_,
      htalking, nofun⟩
    intro j c hj
    exact ⟨(hinside j c hj).1, nofun⟩

theorem Inv.leave (h : w.Inv) (hb : w.busy = none) (hact : w.activecnt = 0) :
    { w with phase := .stopped }.Inv := by
  obtain ⟨hbooks, hholding, hidle, -, hinside, htalking, -⟩ := h
  refine ⟨⟨hbooks.ended, hbooks.bound, hbooks.length, hbooks.once⟩, hholding, hidle, nofun, ?_,
    htalking, fun _ => ⟨hb, ?_⟩⟩
  · intro j c hj
    exact ⟨(hinside j c hj).1, nofun⟩
  · rw [Holding] at hholding
    rw [activecnt] at hact
    split at hholding
    · rename_i hdone
      exact hdone.2
    · omega

theorem workerNew_inv (cfg : Config) (numClients numRequests : ℕ) :
    (workerNew cfg numClients numRequests).Inv := by
  have hworking : (workerNew cfg numClients numRequests).working = ∅ := by
    ext j
    simp only [mem_working, Finset.notMem_empty, iff_false, not_and, not_or]
    exact fun _ => ⟨fun hne => hne rfl, nofun⟩
  refine ⟨⟨rfl, Nat.zero_le _, rfl, ?_⟩, ?_, fun _ _ _ => rfl, fun _ _ _ _ => rfl, nofun, ?_, nofun⟩
  · rw [hworking]
    rfl
  · show (1 : ℤ) = if 0 < numRequests ∧ 0 = numRequests then 0 else 1
    rw [if_neg]
    rintro ⟨hpos, heq⟩
    exact Nat.ne_of_lt hpos heq
  · intro j hb
    rcases hb with hb | hb <;> cases hb

/-- **The step lemma.** -/
theorem Inv.act (h : w.Inv) {a : Action} (ha : a.Allowed w) (hw : w.act a = .ok w') : w'.Inv := by
  cases a with
  | launch =>
    obtain ⟨hb, i, hphase⟩ := ha
    rw [Worker.act, hphase] at hw
    cases hw
    exact h.launch hb hphase
  | event i =>
    obtain ⟨hb, -, hin, hwatched⟩ := ha
    cases hw
    have hbusy : w.busy.map Prod.fst ≠ some i := by
      rw [hb]
      exact nofun
    have hstate : (w.client i).state ≠ .start := by
      intro hstart
      rw [h.idle i hstart hbusy] at hwatched
      cases hwatched
    exact h.enter (.inl hb) (mem_working.mpr ⟨hin, .inl hstate⟩) hstate
  | answer a => exact h.answer hw
  | leave =>
    obtain ⟨hb, -, hact⟩ := ha
    cases hw
    exact h.leave hb hact

end Worker

end Weighttp
