import ReadingComment.Spserver.MsgQueue

/-!
# No lost wake-ups

The ring of a message queue holds a list of messages; what was pushed is what was delivered, what
the event loop has in its hands, and what the ring holds.

A byte is sent only when the first message gets into an empty ring, and the event loop reads bytes
before it takes the lock. It leaves the loop only after it has seen an empty ring under the lock; so
while there are messages, a byte is unread, or about to be sent under the lock, or the event loop
will still look at the ring.
-/

namespace Spserver.MsgQueue

open Lib List

variable {α : Type}

/-! ## The ring -/

theorem uint_eq {x : ℕ} (h : x < 2 ^ 32) : uint x = x := Nat.mod_eq_of_lt h

theorem nextpow2_spec {num : ℕ} (hpos : 0 < num) (hle : num ≤ 2 ^ 31) :
    ∃ k, k ≤ 31 ∧ nextpow2 num = 2 ^ k ∧ num ≤ 2 ^ k := by
  have hpred : uint (num + (2 ^ 32 - 1)) = num - 1 := by
    rw [uint]
    omega
  have hsmeared := (((((Smeared.self (num - 1)).double).double).double).double).double
  have hsmear := hsmeared.eq (by omega)
  have hsize : (num - 1).size ≤ 31 := Nat.size_le.mpr (by omega)
  have hpow : (2 : ℕ) ^ (num - 1).size ≤ 2 ^ 31 := Nat.pow_le_pow_right (by decide) hsize
  have hlt : num - 1 < 2 ^ (num - 1).size := Nat.lt_size_self _
  have hone : 0 < (2 : ℕ) ^ (num - 1).size := Nat.two_pow_pos _
  refine ⟨(num - 1).size, hsize, ?_, by omega⟩
  simp only [nextpow2, hpred]
  rw [hsmear, uint_eq (by omega)]
  omega

namespace Circqueue

/-- The ring holds a list of messages. -/
structure Holds (cq : Circqueue α) (xs : List α) : Prop where
  ring : InRing cq.entries cq.head xs
  size : cq.entries.length = cq.arrayElements
  pow : ∃ k, k ≤ 31 ∧ cq.arrayElements = 2 ^ k
  count : cq.count = xs.length
  tail : cq.tail = (cq.head + xs.length) % cq.arrayElements
  maxEntries : cq.maxEntries ≤ cq.arrayElements
  bounded : cq.maxEntries ≠ 0 → xs.length ≤ cq.maxEntries

def contents (cq : Circqueue α) : List (Option α) :=
  (List.range cq.count).map fun i => cq.entries[(cq.head + i) % cq.arrayElements]?.join

variable {cq : Circqueue α} {xs : List α} {x : α}

theorem Holds.new {size : ℕ} (h : size ≤ 2 ^ 31) : (circqueueNew size : Circqueue α).Holds [] := by
  obtain ⟨k, hk, hpow, hle⟩ :
      ∃ k, k ≤ 31 ∧ (circqueueNew size : Circqueue α).arrayElements = 2 ^ k ∧
      size ≤ 2 ^ k := by
    rcases Nat.eq_zero_or_pos size with rfl | hpos
    · exact ⟨10, by decide, rfl, Nat.zero_le _⟩
    · obtain ⟨k, hk, hpow, hle⟩ := nextpow2_spec hpos h
      refine ⟨k, hk, ?_, hle⟩
      simp only [circqueueNew, hpow]
      rw [if_neg]
      rintro (h | h)
      · omega
      · exact absurd h (Nat.two_pow_pos k).ne'
  have hpos : 0 < (circqueueNew size : Circqueue α).arrayElements := hpow ▸ Nat.two_pow_pos k
  exact ⟨.new hpos, length_replicate, ⟨k, hk, hpow⟩, rfl, (Nat.zero_mod _).symm,
    hle.trans_eq hpow.symm, fun _ => Nat.zero_le _⟩

namespace Holds

section

variable (h : cq.Holds xs)

include h

theorem le : xs.length ≤ cq.arrayElements := h.size ▸ h.ring.le

theorem head_lt : cq.head < cq.arrayElements := h.size ▸ h.ring.lt

theorem arrayElements_le : cq.arrayElements ≤ 2 ^ 31 := by
  obtain ⟨k, hk, hpow⟩ := h.pow
  rw [hpow]
  exact Nat.pow_le_pow_right (by decide) hk

theorem next_eq {i : ℕ} (hi : i < cq.arrayElements) :
    cq.next i = (i + 1) % cq.arrayElements := by
  have hle := h.arrayElements_le
  obtain ⟨k, hk, hpow⟩ := h.pow
  have hmask : uint (cq.arrayElements + (2 ^ 32 - 1)) = 2 ^ k - 1 := by
    rw [uint, ← hpow]
    omega
  rw [next, hmask, uint_eq (by omega), Nat.and_two_pow_sub_one_eq_mod, hpow]

theorem contents_eq : cq.contents = xs.map some := by
  refine ext_getElem? fun i => ?_
  rw [contents, getElem?_map, getElem?_map, h.count]
  by_cases hi : i < xs.length
  · have hx : xs[i]? = some xs[i] := getElem?_eq_getElem hi
    rw [getElem?_range hi, hx, Option.map_some, Option.map_some, ← h.size, h.ring.cell i _ hx]
    rfl
  · rw [getElem?_eq_none (by simpa using hi), getElem?_eq_none (Nat.le_of_not_lt hi)]
    rfl

theorem put (hroom : xs.length < cq.arrayElements)
    (hmax : cq.maxEntries ≠ 0 → xs.length < cq.maxEntries) (elem : α) :
    ∃ cq', cq.put elem = .ok cq' ∧ cq'.Holds (xs ++ [elem]) := by
  have hlt : cq.tail < cq.arrayElements := h.tail ▸ Nat.mod_lt _ (Nat.zero_lt_of_lt hroom)
  have hle := h.arrayElements_le
  have hring := h.ring.push (h.size ▸ hroom) elem
  rw [h.size, ← h.tail] at hring
  refine ⟨_, if_pos (h.size ▸ hlt), hring, ?_, h.pow, ?_, ?_, h.maxEntries, fun hne => ?_⟩
  · simpa using h.size
  · rw [length_append, length_singleton, h.count]
    exact uint_eq (by omega)
  · change cq.next cq.tail = _
    rw [h.next_eq hlt, h.tail, Nat.mod_add_mod, length_append, length_singleton,
      Nat.add_assoc]
  · simpa using Nat.succ_le_of_lt (hmax hne)

/-- **Growing** keeps the messages and their order, wherever the head and the tail are. -/
theorem grow (hpos : 0 < xs.length) (hsmall : cq.arrayElements < 2 ^ 31) :
    ∃ cq', cq.grow true = .ok (cq', true) ∧ cq'.Holds xs ∧
      cq'.arrayElements = 2 * cq.arrayElements ∧ cq'.maxEntries = cq.maxEntries := by
  obtain ⟨k, hk, hpow⟩ := h.pow
  have hle := h.le
  have hhead := h.head_lt
  have hnew : uint (cq.arrayElements <<< 1) = 2 * cq.arrayElements := by
    rw [Nat.shiftLeft_eq, uint_eq (by omega)]
    omega
  -- the two chunks are the messages
  obtain ⟨n, m, hn, hm, hnm, hcells⟩ : ∃ n m,
      (if cq.head < cq.tail then cq.tail - cq.head else cq.arrayElements - cq.head) = n ∧
      (if cq.head < cq.tail then 0 else cq.tail) = m ∧ n + m = xs.length ∧
      ∃ a b, cells cq.entries cq.head n = .ok a ∧ cells cq.entries 0 m = .ok b ∧
        a ++ b = xs.map some := by
    by_cases hend : cq.head + xs.length < cq.arrayElements
    · have htail : cq.tail = cq.head + xs.length := h.tail.trans (Nat.mod_eq_of_lt hend)
      refine ⟨xs.length, 0, by rw [if_pos (by omega)]; omega, if_pos (by omega), rfl,
        xs.map some, [], ?_, by simp [cells], append_nil _⟩
      rw [cells, if_pos (by rw [h.size]; omega), h.ring.chunk (by rw [h.size]; omega)]
    · have htail : cq.tail = cq.head + xs.length - cq.arrayElements := by
        rw [h.tail, Nat.mod_eq_sub_mod (Nat.le_of_not_lt hend), Nat.mod_eq_of_lt (by omega)]
      refine ⟨cq.arrayElements - cq.head, cq.tail, if_neg (by omega), if_neg (by omega), by omega,
        cq.entries.drop cq.head, cq.entries.take cq.tail, ?_, ?_, ?_⟩
      · rw [cells, if_pos (by rw [h.size]; omega), take_of_length_le]
        rw [length_drop, h.size]
      · rw [cells, if_pos (by rw [h.size]; omega), drop_zero]
      · rw [htail, ← h.size]
        exact h.ring.chunks (by rw [h.size]; omega)
  obtain ⟨a, b, ha, hb, hab⟩ := hcells
  have hlen : (a ++ b).length = xs.length := by rw [hab, length_map]
  refine ⟨{ cq with
    head := 0
    tail := n + m
    arrayElements := 2 * cq.arrayElements
    entries := xs.map some ++ List.replicate (2 * cq.arrayElements - xs.length) none }, ?_,
    ⟨?_, ?_, ⟨k + 1, ?_, ?_⟩, h.count, ?_, ?_, h.bounded⟩, rfl, rfl⟩
  · rw [Circqueue.grow, if_pos rfl]
    simp only [hn, hm, ha, hb, hnew, bind, Except.bind, pure, Except.pure]
    rw [if_pos (by omega), hlen, hab]
  · exact .unrolled xs _ (by simp; omega)
  · simp only [length_append, length_map, length_replicate]
    omega
  · have : k < 31 := (Nat.pow_lt_pow_iff_right (by decide)).mp (hpow ▸ hsmall)
    omega
  · change 2 * cq.arrayElements = _
    rw [hpow, Nat.pow_succ]
    omega
  · change n + m = (0 + xs.length) % (2 * cq.arrayElements)
    rw [Nat.zero_add, Nat.mod_eq_of_lt (by omega), hnm]
  · change cq.maxEntries ≤ 2 * cq.arrayElements
    exact h.maxEntries.trans (by omega)

/-- **Pushing**: the message is behind the others, or nothing is changed. -/
theorem pushTail (hsmall : xs.length < 2 ^ 31) (memory : Bool) (elem : α) :
    (∃ cq', cq.pushTail memory elem = .ok (cq', true) ∧ cq'.Holds (xs ++ [elem])) ∨
      cq.pushTail memory elem = .ok (cq, false) := by
  rw [Circqueue.pushTail]
  by_cases hmax : cq.maxEntries ≠ 0
  · rw [if_pos hmax]
    by_cases hfull : cq.count = cq.maxEntries
    · exact .inr (if_pos hfull)
    · have hlt : xs.length < cq.maxEntries := Nat.lt_of_le_of_ne (h.bounded hmax) (h.count ▸ hfull)
      obtain ⟨cq', hput, hholds⟩ := h.put (hlt.trans_le h.maxEntries) (fun _ => hlt) elem
      rw [if_neg hfull, hput]
      exact .inl ⟨cq', rfl, hholds⟩
  · rw [if_neg hmax]
    by_cases hfull : cq.count = cq.arrayElements
    · rw [if_pos hfull]
      have hlen : xs.length = cq.arrayElements := h.count.symm.trans hfull
      cases memory with
      | false => exact .inr rfl
      | true =>
        have hpos : 0 < xs.length := hlen ▸ Nat.zero_lt_of_lt h.head_lt
        obtain ⟨cq₁, hgrow, hgrown, hsize, hkept⟩ := h.grow hpos (hlen ▸ hsmall)
        obtain ⟨cq', hput, hholds⟩ :=
          hgrown.put (by omega) (fun hne => absurd (hkept.symm ▸ hne) hmax) elem
        rw [hgrow]
        simp only [bind, Except.bind, hput]
        exact .inl ⟨cq', rfl, hholds⟩
    · rw [if_neg hfull]
      have hlt : xs.length < cq.arrayElements := Nat.lt_of_le_of_ne h.le (h.count ▸ hfull)
      obtain ⟨cq', hput, hholds⟩ := h.put hlt (fun hne => absurd hne hmax) elem
      rw [hput]
      exact .inl ⟨cq', rfl, hholds⟩

end

/-- **Popping** takes the first message. -/
theorem popHead (h : cq.Holds (x :: xs)) :
    ∃ cq', cq.popHead = .ok (cq', some x) ∧ cq'.Holds xs := by
  have hle := h.le
  have hcount := h.count
  rw [length_cons] at hle hcount
  have hring := h.ring.pop
  rw [h.size, ← h.next_eq h.head_lt] at hring
  refine ⟨{ cq with count := cq.count - 1, head := cq.next cq.head }, ?_, hring, h.size, h.pow,
    ?_, ?_, h.maxEntries, fun hne => ?_⟩
  · rw [Circqueue.popHead, if_neg (by omega), h.ring.first]
  · simp only
    omega
  · change cq.tail = (cq.next cq.head + xs.length) % cq.arrayElements
    rw [h.tail, length_cons, h.next_eq h.head_lt, Nat.mod_add_mod]
    congr 1
    omega
  · exact (Nat.le_succ _).trans (h.bounded hne)

end Holds

end Circqueue

/-! ## The threads -/

def PusherPc.holds : PusherPc α → Bool
  | .push _ | .send | .unlock => true
  | _ => false

def ReaderPc.holds : ReaderPc α → Bool
  | .test | .unlock _ | .exit => true
  | _ => false

def ReaderPc.inFlight : ReaderPc α → List (Option α)
  | .unlock qdata | .callback qdata => [qdata]
  | _ => []

def ReaderPc.willing : ReaderPc α → Bool
  | .lock | .test | .unlock _ | .callback _ | .relock => true
  | _ => false

/-- What a run did. -/
structure History (α : Type) where
  /-- the messages whose push returned 0, in the order in which they got into the ring -/
  pushed : List α
  /-- what the callback was called with -/
  delivered : List (Option α)

namespace Msgqueue

variable {q q' : Msgqueue α} {h h' : History α} {xs : List α}

def note (q : Msgqueue α) (a : Action α) (h : History α) : History α :=
  match a with
  | .pusher i memory =>
    match q.pusher i with
    | .push msg =>
      match q.queue.pushTail memory msg with
      | .ok (_, true) => { h with pushed := h.pushed ++ [msg] }
      | _ => h
    | _ => h
  | .reader _ =>
    match q.reader with
    | .callback qdata => { h with delivered := h.delivered ++ [qdata] }
    | _ => h
  | _ => h

def historySystem (maxSize : ℕ) : Lib.System (Msgqueue α × History α) (Action α) Fault :=
  (system maxSize).record ⟨[], []⟩ note

def Room (q : Msgqueue α) : Action α → Prop
  | .pusher i _ => ∀ msg, q.pusher i = .push msg → q.queue.count < 2 ^ 31
  | _ => True

def holds (q : Msgqueue α) : Holder → Bool
  | .reader => q.reader.holds
  | .pusher i => (q.pusher i).holds

/-- **The invariant** of a queue that holds the messages `xs`. -/
structure Inv (q : Msgqueue α) (h : History α) (xs : List α) : Prop where
  queue : q.queue.Holds xs
  messages : h.pushed.map some = h.delivered ++ q.reader.inFlight ++ xs.map some
  locked : ∀ p, q.holds p = true ↔ q.lock = some p
  unlockBetween : q.unlockBetweenCallbacks = true
  exit : q.reader = .exit → xs = []
  awake : xs = [] ∨ 0 < q.unread ∨ (∃ i, q.pusher i = .send) ∨ q.reader.willing = true

theorem locked_step (hlocked : ∀ p, q.holds p = true ↔ q.lock = some p) (p₀ : Holder)
    (hself : q'.holds p₀ = true ↔ q'.lock = some p₀)
    (hothers : ∀ p, p ≠ p₀ → q'.holds p = q.holds p ∧ (q'.lock = some p ↔ q.lock = some p)) :
    ∀ p, q'.holds p = true ↔ q'.lock = some p := by
  intro p
  by_cases hp : p = p₀
  · rw [hp]
    exact hself
  · obtain ⟨hholds, hlock⟩ := hothers p hp
    rw [hholds, hlock]
    exact hlocked p

theorem holds_goto {i : ℕ} {pc : PusherPc α} {p : Holder} (hp : p ≠ .pusher i) :
    (q.goto i pc).holds p = q.holds p := by
  cases p with
  | reader => rfl
  | pusher j =>
    have hj : j ≠ i := fun heq => hp (heq ▸ rfl)
    exact congrArg PusherPc.holds (Function.update_of_ne hj ..)

namespace Inv

theorem init {maxSize : ℕ} (hmax : maxSize ≤ 2 ^ 31) :
    Inv (new maxSize : Msgqueue α) ⟨[], []⟩ [] where
  queue := .new hmax
  messages := rfl
  locked p := by cases p <;> exact ⟨nofun, nofun⟩
  unlockBetween := rfl
  exit := nofun
  awake := .inl rfl

variable {i : ℕ}

section

variable (hinv : Inv q h xs)

include hinv

theorem awake_goto (hsend : q.pusher i ≠ .send) (pc : PusherPc α) :
    xs = [] ∨ 0 < q.unread ∨ (∃ j, (q.goto i pc).pusher j = .send) ∨ q.reader.willing = true := by
  refine hinv.awake.imp_right (Or.imp_right (Or.imp_left fun ⟨j, hj⟩ => ⟨j, ?_⟩))
  have hne : j ≠ i := fun heq => hsend (heq ▸ hj)
  exact (Function.update_of_ne hne ..).trans hj

theorem locked_goto {pc : PusherPc α} (hholds : pc.holds = (q.pusher i).holds) (p : Holder) :
    (q.goto i pc).holds p = true ↔ q.lock = some p := by
  have hself : (q.goto i pc).holds (.pusher i) = q.holds (.pusher i) := by
    simp [holds, goto, hholds]
  have hat : (q.goto i pc).holds (.pusher i) = true ↔ (q.goto i pc).lock = some (.pusher i) := by
    rw [hself]
    exact hinv.locked _
  exact locked_step hinv.locked (.pusher i) hat (fun p hp => ⟨holds_goto hp, Iff.rfl⟩) p

theorem call (hidle : q.pusher i = .idle) (msg : α) :
    Inv (q.goto i (.lock msg)) h xs where
  queue := hinv.queue
  messages := hinv.messages
  locked := hinv.locked_goto (by rw [hidle]; rfl)
  unlockBetween := hinv.unlockBetween
  exit := hinv.exit
  awake := hinv.awake_goto (by rw [hidle]; nofun) _

theorem pusherLock {msg : α} (hpc : q.pusher i = .lock msg) (hfree : q.lock = none) :
    Inv { q.goto i (.push msg) with lock := some (.pusher i) } h xs where
  queue := hinv.queue
  messages := hinv.messages
  locked := by
    refine locked_step hinv.locked (.pusher i) ?_ fun p hp =>
      ⟨show (q.goto i (.push msg)).holds p = q.holds p from holds_goto hp, ?_⟩
    · simp [holds, goto, PusherPc.holds]
    · rw [hfree]
      exact ⟨fun heq => absurd (Option.some.inj heq).symm hp, nofun⟩
  unlockBetween := hinv.unlockBetween
  exit := hinv.exit
  awake := hinv.awake_goto (by rw [hpc]; nofun) _

theorem pusherSend (hpc : q.pusher i = .send) :
    Inv { q.goto i .unlock with unread := q.unread + 1 } h xs where
  queue := hinv.queue
  messages := hinv.messages
  locked := hinv.locked_goto (by rw [hpc]; rfl)
  unlockBetween := hinv.unlockBetween
  exit := hinv.exit
  awake := .inr (.inl (Nat.succ_pos _))

theorem pusherUnlock (hpc : q.pusher i = .unlock) :
    Inv { q.goto i .idle with lock := none } h xs where
  queue := hinv.queue
  messages := hinv.messages
  locked := by
    have hlock : q.lock = some (.pusher i) := (hinv.locked _).mp (by rw [holds, hpc]; rfl)
    refine locked_step hinv.locked (.pusher i) ?_ fun p hp =>
      ⟨show (q.goto i .idle).holds p = q.holds p from holds_goto hp, ?_⟩
    · simp [holds, goto, PusherPc.holds]
    · rw [hlock]
      exact ⟨nofun, fun heq => absurd (Option.some.inj heq).symm hp⟩
  unlockBetween := hinv.unlockBetween
  exit := hinv.exit
  awake := hinv.awake_goto (by rw [hpc]; nofun) _

/-- **A message gets into the ring**, or there is no room for it. -/
theorem pusherPush {msg : α} (hpc : q.pusher i = .push msg) (hroom : q.queue.count < 2 ^ 31)
    (memory : Bool) :
    ∃ q' xs', q.pusherStep i memory = .ok q' ∧ Inv q' (q.note (.pusher i memory) h) xs' := by
  have hlock : q.lock = some (.pusher i) := (hinv.locked _).mp (by rw [holds, hpc]; rfl)
  -- the event loop does not have the lock, so it is not about to leave
  have hexit : q.reader ≠ .exit := fun heq => by
    have := (hinv.locked .reader).mp (by rw [holds, heq]; rfl)
    rw [hlock] at this
    cases this
  simp only [pusherStep, note, hpc]
  rcases hinv.queue.pushTail (hinv.queue.count ▸ hroom) memory msg with ⟨cq, hpush, hholds⟩ | hpush
  · refine ⟨_, xs ++ [msg], by rw [hpush]; rfl, ?_⟩
    rw [hpush]
    refine ⟨hholds, ?_, hinv.locked_goto ?_, hinv.unlockBetween, fun heq => absurd heq hexit, ?_⟩
    · simp only [map_append, hinv.messages]
      simp [goto]
    · rw [hpc]
      split <;> rfl
    · -- the first message in the ring makes the thread send a byte
      have hcount : cq.count = xs.length + 1 := by
        rw [hholds.count, length_append, length_singleton]
      by_cases hnil : xs = []
      · refine .inr (.inr (.inl ⟨i, ?_⟩))
        have hone : cq.count = 1 := by rw [hcount, hnil, length_nil]
        simp [goto, hone]
      · have hold := hinv.awake_goto (i := i) (by rw [hpc]; nofun)
          (if True ∧ cq.count = 1 then .send else .unlock)
        simpa [hnil, goto] using hold
  · refine ⟨_, xs, by rw [hpush]; rfl, ?_⟩
    rw [hpush]
    refine ⟨hinv.queue, hinv.messages, hinv.locked_goto ?_, hinv.unlockBetween, hinv.exit, ?_⟩
    · rw [hpc]
      rfl
    · exact hinv.awake_goto (by rw [hpc]; nofun) _

theorem locked_reader (hpusher : q'.pusher = q.pusher)
    (hself : q'.reader.holds = true ↔ q'.lock = some .reader)
    (hlock : ∀ i, q'.lock = some (.pusher i) ↔ q.lock = some (.pusher i)) (p : Holder) :
    q'.holds p = true ↔ q'.lock = some p := by
  cases p with
  | reader => exact hself
  | pusher i =>
    rw [hlock i, ← hinv.locked (.pusher i)]
    simp only [holds, hpusher]

theorem locked_given (hholds : q.reader.holds = true) (i : ℕ) :
    none = some (Holder.pusher i) ↔ q.lock = some (.pusher i) := by
  rw [(hinv.locked .reader).mp hholds]
  exact ⟨nofun, nofun⟩

end

theorem locked_taken (hfree : q.lock = none) (i : ℕ) :
    some Holder.reader = some (.pusher i) ↔ q.lock = some (.pusher i) := by
  rw [hfree]
  exact ⟨nofun, nofun⟩

theorem readerTest (hinv : Inv q h xs) (hpc : q.reader = .test) (bytes : ℕ) :
    ∃ q' xs', q.readerStep bytes = .ok q' ∧ Inv q' (q.note (.reader bytes) h) xs' := by
  have hlock : q.lock = some .reader := (hinv.locked .reader).mp (by rw [holds, hpc]; rfl)
  have hmessages := hinv.messages
  simp only [hpc, ReaderPc.inFlight, append_nil] at hmessages
  simp only [readerStep, note, hpc]
  cases xs with
  | nil =>
    rw [if_pos (show q.queue.count = 0 from hinv.queue.count)]
    refine ⟨_, [], rfl, hinv.queue, ?_, ?_, hinv.unlockBetween, fun _ => rfl, .inl rfl⟩
    · simpa [ReaderPc.inFlight] using hmessages
    · refine hinv.locked_reader rfl ?_ fun _ => Iff.rfl
      simp [hlock, ReaderPc.holds]
  | cons x xs =>
    obtain ⟨cq, hpop, hholds⟩ := hinv.queue.popHead
    have hne : q.queue.count ≠ 0 := by
      rw [hinv.queue.count]
      exact Nat.succ_ne_zero _
    rw [if_neg hne, hpop]
    simp only [bind, Except.bind, pure, Except.pure, hinv.unlockBetween, if_true]
    refine ⟨_, xs, rfl, hholds, ?_, ?_, rfl, nofun, .inr (.inr (.inr rfl))⟩
    · simpa [ReaderPc.inFlight] using hmessages
    · refine hinv.locked_reader rfl ?_ fun _ => Iff.rfl
      simp [hlock, ReaderPc.holds]

/-- **A step of the event loop** in `msgqueue_pop`. -/
theorem readerStep (hinv : Inv q h xs) {bytes : ℕ} (hallowed : q.Allowed (.reader bytes)) :
    ∃ q' xs', q.readerStep bytes = .ok q' ∧ Inv q' (q.note (.reader bytes) h) xs' := by
  have hmessages := hinv.messages
  cases hpc : q.reader with
  | idle => simp [Allowed, hpc] at hallowed
  | recv =>
    rw [hpc] at hmessages
    simp only [Msgqueue.readerStep, note, hpc]
    refine ⟨_, xs, rfl, hinv.queue, hmessages, ?_, hinv.unlockBetween, nofun,
      .inr (.inr (.inr rfl))⟩
    refine hinv.locked_reader rfl ?_ fun _ => Iff.rfl
    have := hinv.locked .reader
    rwa [holds, hpc] at this
  | lock =>
    simp only [Allowed, hpc] at hallowed
    rw [hpc] at hmessages
    simp only [Msgqueue.readerStep, note, hpc]
    refine ⟨_, xs, rfl, hinv.queue, hmessages, ?_, hinv.unlockBetween, nofun,
      .inr (.inr (.inr rfl))⟩
    exact hinv.locked_reader rfl ⟨fun _ => rfl, fun _ => rfl⟩ (locked_taken hallowed)
  | test => exact hinv.readerTest hpc bytes
  | unlock qdata =>
    rw [hpc] at hmessages
    simp only [Msgqueue.readerStep, note, hpc]
    refine ⟨_, xs, rfl, hinv.queue, hmessages, ?_, hinv.unlockBetween, nofun,
      .inr (.inr (.inr rfl))⟩
    exact hinv.locked_reader rfl ⟨nofun, nofun⟩ (hinv.locked_given (by rw [hpc]; rfl))
  | callback qdata =>
    rw [hpc] at hmessages
    simp only [Msgqueue.readerStep, note, hpc]
    refine ⟨_, xs, rfl, hinv.queue, ?_, ?_, hinv.unlockBetween, nofun, .inr (.inr (.inr rfl))⟩
    · simpa [ReaderPc.inFlight] using hmessages
    · refine hinv.locked_reader rfl ?_ fun _ => Iff.rfl
      have := hinv.locked .reader
      rwa [holds, hpc] at this
  | relock =>
    simp only [Allowed, hpc] at hallowed
    rw [hpc] at hmessages
    simp only [Msgqueue.readerStep, note, hpc, hinv.unlockBetween, if_true]
    refine ⟨_, xs, rfl, hinv.queue, hmessages, ?_, rfl, nofun, .inr (.inr (.inr rfl))⟩
    exact hinv.locked_reader rfl ⟨fun _ => rfl, fun _ => rfl⟩
      (locked_taken (hallowed hinv.unlockBetween))
  | exit =>
    rw [hpc] at hmessages
    simp only [Msgqueue.readerStep, note, hpc]
    refine ⟨_, xs, rfl, hinv.queue, hmessages, ?_, hinv.unlockBetween, nofun,
      .inl (hinv.exit hpc)⟩
    exact hinv.locked_reader rfl ⟨nofun, nofun⟩ (hinv.locked_given (by rw [hpc]; rfl))

/-- **Step lemma**: nothing goes wrong, and the invariant is kept. -/
theorem next (hinv : Inv q h xs) {a : Action α} (hallowed : q.Allowed a) (hroom : q.Room a) :
    ∃ q' xs', q.step a = .ok q' ∧ Inv q' (q.note a h) xs' := by
  cases a with
  | call i msg => exact ⟨_, xs, rfl, hinv.call hallowed msg⟩
  | pusher i memory =>
    cases hpc : q.pusher i with
    | idle => simp [Allowed, hpc] at hallowed
    | lock msg =>
      simp only [Allowed, hpc] at hallowed
      simp only [step, pusherStep, note, hpc]
      exact ⟨_, xs, rfl, hinv.pusherLock hpc hallowed⟩
    | push msg => exact hinv.pusherPush hpc (hroom msg hpc) memory
    | send =>
      simp only [step, pusherStep, note, hpc]
      exact ⟨_, xs, rfl, hinv.pusherSend hpc⟩
    | unlock =>
      simp only [step, pusherStep, note, hpc]
      exact ⟨_, xs, rfl, hinv.pusherUnlock hpc⟩
  | wake =>
    have hidle : q.reader = .idle := hallowed
    have hmessages := hinv.messages
    have hawake := hinv.awake
    rw [hidle] at hmessages hawake
    refine ⟨_, xs, rfl, hinv.queue, hmessages, ?_, hinv.unlockBetween, nofun, hawake⟩
    refine hinv.locked_reader rfl ?_ fun _ => Iff.rfl
    have := hinv.locked .reader
    rwa [holds, hidle] at this
  | reader bytes => exact hinv.readerStep hallowed

end Inv

theorem reach_inv {maxSize : ℕ} (hmax : maxSize ≤ 2 ^ 31)
    (hreach : (historySystem maxSize).Reach (fun s a => Room s.1 a) (q, h)) : ∃ xs, Inv q h xs := by
  refine Lib.System.Reach.record_invariant (S := system maxSize) Room (fun q h => ∃ xs, Inv q h xs)
    ⟨[], .init hmax⟩ (fun q h a q' ⟨xs, hinv⟩ hallowed hroom hstep => ?_) hreach
  obtain ⟨q₁, xs', hrun, hnext⟩ := hinv.next hallowed hroom
  obtain rfl := Except.ok.inj (hrun.symm.trans hstep)
  exact ⟨xs', hnext⟩

/-- **The message queue**: in every interleaving, no step goes wrong; what was pushed is, in that
order, what was delivered, what the event loop has popped and what the ring holds; while the ring is
not empty and the event loop is not in `msgqueue_pop`, a byte is unread or a thread that has the
lock sends one next; when there is neither and the event loop is idle, everything pushed was
delivered; and a ring that grows keeps its contents, wherever its head and tail are. -/
theorem delivered_in_order {maxSize : ℕ} (hmax : maxSize ≤ 2 ^ 31)
    (hreach : (historySystem maxSize).Reach (fun s a => Room s.1 a) (q, h)) :
    (∀ a, q.Allowed a → q.Room a → ∃ q', q.step a = .ok q') ∧
    h.pushed.map some = h.delivered ++ q.reader.inFlight ++ q.queue.contents ∧
    (q.reader = .idle → q.queue.count ≠ 0 →
      0 < q.unread ∨ ∃ i, q.pusher i = .send ∧ q.lock = some (.pusher i)) ∧
    (q.reader = .idle → q.unread = 0 → (∀ i, q.pusher i ≠ .send) →
      h.delivered = h.pushed.map some) ∧
    ∀ (cq : Circqueue α) (xs : List α), cq.Holds xs → cq.count ≠ 0 → cq.arrayElements < 2 ^ 31 →
      ∃ cq', cq.grow true = .ok (cq', true) ∧ cq'.Holds xs ∧ cq'.contents = cq.contents := by
  obtain ⟨xs, hinv⟩ := reach_inv hmax hreach
  have hawake : q.reader = .idle → xs = [] ∨ 0 < q.unread ∨ ∃ i, q.pusher i = .send := by
    intro hidle
    have := hinv.awake
    rw [hidle] at this
    simpa [ReaderPc.willing] using this
  refine ⟨fun a hallowed hroom => ?_, ?_, fun hidle hne => ?_, fun hidle hunread hsend => ?_,
    fun cq xs hholds hne hsmall => ?_⟩
  · obtain ⟨q', -, hrun, -⟩ := hinv.next hallowed hroom
    exact ⟨q', hrun⟩
  · rw [hinv.queue.contents_eq]
    exact hinv.messages
  · rcases hawake hidle with rfl | hunread | ⟨i, hi⟩
    · exact absurd hinv.queue.count hne
    · exact .inl hunread
    · exact .inr ⟨i, hi, (hinv.locked (.pusher i)).mp (by rw [holds, hi]; rfl)⟩
  · have hnil : xs = [] := by
      rcases hawake hidle with hnil | hunread' | ⟨i, hi⟩
      · exact hnil
      · omega
      · exact absurd hi (hsend i)
    have hmessages := hinv.messages
    rw [hidle, hnil] at hmessages
    simpa [ReaderPc.inFlight] using hmessages.symm
  · obtain ⟨cq', hgrow, hgrown, -⟩ := hholds.grow (by rw [← hholds.count]; omega) hsmall
    exact ⟨cq', hgrow, hgrown, by rw [hgrown.contents_eq, hholds.contents_eq]⟩

/-- Two threads push a message each before the event loop runs, and both are delivered. -/
theorem delivered_in_order_two : ∃ (q : Msgqueue ℕ) (h : History ℕ),
    (historySystem 2).Reach (fun s a => Room s.1 a) (q, h) ∧ h.pushed = [7, 8] ∧
      h.delivered = [some 7, some 8] := by
  have h₁ : (historySystem 2).Reach (fun s (a : Action ℕ) => Room s.1 a) _ :=
    .step (a := .call 0 7) .init rfl trivial rfl
  have h₂ := h₁.next (.pusher 0 true) rfl (by rintro msg ⟨⟩) rfl
  have h₃ := h₂.next (.pusher 0 true) trivial (fun _ _ => Nat.two_pow_pos 31) rfl
  have h₄ := h₃.next (.pusher 0 true) trivial (by rintro msg ⟨⟩) rfl
  have h₅ := h₄.next (.pusher 0 true) trivial (by rintro msg ⟨⟩) rfl
  have h₆ := h₅.next (.call 1 8) rfl trivial rfl
  have h₇ := h₆.next (.pusher 1 true) rfl (by rintro msg ⟨⟩) rfl
  have h₈ := h₇.next (.pusher 1 true) trivial (fun _ _ => by decide) rfl
  have h₉ := h₈.next (.pusher 1 true) trivial (by rintro msg ⟨⟩) rfl
  have h₁₀ := h₉.next .wake rfl trivial rfl
  have h₁₁ := h₁₀.next (.reader 1) ⟨Nat.le_refl 1, by decide⟩ trivial rfl
  have h₁₂ := h₁₁.next (.reader 0) rfl trivial rfl
  have h₁₃ := h₁₂.next (.reader 0) trivial trivial rfl
  have h₁₄ := h₁₃.next (.reader 0) trivial trivial rfl
  have h₁₅ := h₁₄.next (.reader 0) trivial trivial rfl
  have h₁₆ := h₁₅.next (.reader 0) (fun _ => rfl) trivial rfl
  have h₁₇ := h₁₆.next (.reader 0) trivial trivial rfl
  have h₁₈ := h₁₇.next (.reader 0) trivial trivial rfl
  have h₁₉ := h₁₈.next (.reader 0) trivial trivial rfl
  have h₂₀ := h₁₉.next (.reader 0) (fun _ => rfl) trivial rfl
  have h₂₁ := h₂₀.next (.reader 0) trivial trivial rfl
  have h₂₂ := h₂₁.next (.reader 0) trivial trivial rfl
  obtain ⟨-, -, -, hall, -⟩ := delivered_in_order (by decide) h₂₂
  exact ⟨_, _, h₂₂, rfl, hall rfl rfl (by rintro (_ | _ | i) ⟨⟩)⟩

/-- A thread has put the first message into the ring and has not sent a byte yet. -/
theorem no_byte_yet : ∃ (q : Msgqueue ℕ) (h : History ℕ),
    (historySystem 2).Reach (fun s a => Room s.1 a) (q, h) ∧ q.reader = .idle ∧
      q.queue.count ≠ 0 ∧ q.unread = 0 := by
  have h₁ : (historySystem 2).Reach (fun s (a : Action ℕ) => Room s.1 a) _ :=
    .step (a := .call 0 7) .init rfl trivial rfl
  have h₂ := h₁.next (.pusher 0 true) rfl (by rintro msg ⟨⟩) rfl
  have h₃ := h₂.next (.pusher 0 true) trivial (fun _ _ => Nat.two_pow_pos 31) rfl
  exact ⟨_, _, h₃, rfl, by decide, rfl⟩

end Msgqueue

end Spserver.MsgQueue
