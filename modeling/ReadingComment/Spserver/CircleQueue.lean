import ReadingComment.Lib.Codec
import ReadingComment.Spserver.MsgQueue

/-!
# The queue of pointers (`SP_CircleQueue` in `spserver/sputils.cpp`)

The pointers are in a ring of entries that grows by a half when it is full. The
numbers are of type `unsigned int`; that `malloc` has memory is assumed.
-/

namespace Spserver

open MsgQueue (Fault uint)
open MsgQueue.Circqueue (cells)

/-- `SP_CircleQueue`; an entry that was not written is `none`. -/
structure CircleQueue (α : Type) where
  mEntries : List (Option α)
  mHead : ℕ
  mTail : ℕ
  mCount : ℕ
  mMaxCount : ℕ

namespace CircleQueue

variable {α : Type}

/-- `SP_CircleQueue()` -/
def new : CircleQueue α := ⟨List.replicate 8 none, 0, 0, 0, 8⟩

/-- The growth in `push`. -/
def grow (q : CircleQueue α) : Except Fault (CircleQueue α) := do
  let mMaxCount := uint (q.mMaxCount * 3) / 2 + 1
  let headLen :=
    if q.mHead < q.mTail then q.mTail - q.mHead else uint (q.mCount + (2 ^ 32 - q.mTail))
  let tailLen := if q.mHead < q.mTail then 0 else q.mTail
  let head ← cells q.mEntries q.mHead headLen
  let tail ← cells q.mEntries 0 tailLen
  let chunks := head ++ tail
  -- both `memcpy` write into the new entries
  if chunks.length ≤ mMaxCount then
    return { q with
      mEntries := chunks ++ List.replicate (mMaxCount - chunks.length) none
      mHead := 0
      mTail := uint (headLen + tailLen)
      mMaxCount := mMaxCount }
  else .error .outOfArray

/-- The last lines of `push(item)`. -/
def put (q : CircleQueue α) (item : α) : Except Fault (CircleQueue α) :=
  if q.mTail < q.mEntries.length then .ok { q with
    mEntries := q.mEntries.set q.mTail (some item)
    mTail := uint (q.mTail + 1) % q.mMaxCount
    mCount := uint (q.mCount + 1) }
  else .error .outOfArray

/-- `push(item)` -/
def push (q : CircleQueue α) (item : α) : Except Fault (CircleQueue α) :=
  if q.mCount ≥ q.mMaxCount then q.grow >>= fun q => q.put item else q.put item

/-- `mEntries[ mHead ]` -/
def first (q : CircleQueue α) : Except Fault α :=
  match q.mEntries[q.mHead]? with
  | none => .error .outOfArray
  | some none => .error .uninitialized
  | some (some item) => .ok item

/-- `pop()` -/
def pop (q : CircleQueue α) : Except Fault (Option α × CircleQueue α) :=
  if q.mCount > 0 then do
    let ret ← q.first
    return (some ret, { q with
      mHead := uint (q.mHead + 1) % q.mMaxCount
      mCount := q.mCount - 1 })
  else .ok (none, q)

/-- `top()` -/
def top (q : CircleQueue α) : Except Fault (Option α) :=
  if q.mCount > 0 then some <$> q.first else .ok none

/-- `getLength()`, an `int`. -/
def getLength (q : CircleQueue α) : ℤ := (BitVec.ofNat 32 q.mCount).toInt

/-- A call. -/
inductive Op (α : Type) where
  | push (item : α)
  | pop
  | top
  | getLength

/-- What a call returns; NULL is `none`. -/
inductive Ret (α : Type) where
  | void
  | pointer (item : Option α)
  | int (n : ℤ)

def call (q : CircleQueue α) : Op α → Except Fault (Ret α × CircleQueue α)
  | .push item => q.push item >>= fun q => .ok (.void, q)
  | .pop => q.pop >>= fun r => .ok (.pointer r.1, r.2)
  | .top => q.top >>= fun item => .ok (.pointer item, q)
  | .getLength => .ok (.int q.getLength, q)

def calls (q : CircleQueue α) : List (Op α) → Except Fault (List (Ret α) × CircleQueue α)
  | [] => .ok ([], q)
  | op :: ops => do
    let (ret, q) ← q.call op
    let (rets, q) ← q.calls ops
    return (ret :: rets, q)

def listCall (xs : List α) : Op α → Ret α × List α
  | .push item => (.void, xs ++ [item])
  | .pop => (.pointer xs.head?, xs.tail)
  | .top => (.pointer xs.head?, xs)
  | .getLength => (.int xs.length, xs)

def listCalls (xs : List α) : List (Op α) → List (Ret α)
  | [] => []
  | op :: ops => (listCall xs op).1 :: listCalls (listCall xs op).2 ops

/-- Three times this number is not an `unsigned int`; the capacities before are smaller. -/
def lastCapacity : ℕ := 1796357450

/-- Nothing is pushed onto `lastCapacity` items. -/
def Fits (xs : List α) : List (Op α) → Prop
  | [] => True
  | op :: ops => (∀ item, op = .push item → xs.length ≠ lastCapacity) ∧ Fits (listCall xs op).2 ops

/-! ## Capacities -/

/-- The capacity after `k` growths. -/
def capacity : ℕ → ℕ
  | 0 => 8
  | k + 1 => capacity k * 3 / 2 + 1

theorem capacity_mono : Monotone capacity := monotone_nat_of_le_succ fun k => by
  rw [capacity]
  omega

theorem capacity_le {k : ℕ} (hk : k ≤ 47) : capacity k ≤ lastCapacity :=
  (capacity_mono hk).trans (by decide)

theorem capacity_small {k : ℕ} (hk : capacity k ≠ lastCapacity) (hle : k ≤ 47) :
    k < 47 ∧ capacity k * 3 < 2 ^ 32 := by
  have hlt : k < 47 := Nat.lt_of_le_of_ne hle fun h => hk (h ▸ by decide)
  have hle' : capacity k ≤ capacity 46 := capacity_mono (Nat.le_of_lt_succ hlt)
  have h46 : capacity 46 = 1197571633 := by decide
  exact ⟨hlt, by omega⟩

/-! ## Single calls -/

/-- The queue holds the items `xs`. -/
structure Holds (q : CircleQueue α) (xs : List α) : Prop where
  ring : Lib.InRing q.mEntries q.mHead xs
  size : q.mEntries.length = q.mMaxCount
  tail : q.mTail = (q.mHead + xs.length) % q.mMaxCount
  count : q.mCount = xs.length
  cap : ∃ k ≤ 47, q.mMaxCount = capacity k

namespace Holds

variable {q : CircleQueue α} {x : α} {xs : List α}

theorem new : (new : CircleQueue α).Holds [] :=
  ⟨.new (by decide), rfl, rfl, rfl, 0, by decide, rfl⟩

section

variable (h : q.Holds xs)

include h

theorem le : xs.length ≤ q.mMaxCount := h.size ▸ h.ring.le

theorem head_lt : q.mHead < q.mMaxCount := h.size ▸ h.ring.lt

theorem tail_lt : q.mTail < q.mMaxCount :=
  h.tail ▸ Nat.mod_lt _ (Nat.zero_lt_of_lt h.head_lt)

theorem max_le : q.mMaxCount ≤ lastCapacity := by
  obtain ⟨k, hk, hcap⟩ := h.cap
  exact hcap ▸ capacity_le hk

theorem uint_eq {n : ℕ} (hn : n ≤ q.mMaxCount) : uint n = n :=
  Nat.mod_eq_of_lt (Nat.lt_of_le_of_lt (hn.trans h.max_le) (by decide))

/-- A full queue is unrolled, if the new entries are enough. -/
theorem grow_eq (hfull : xs.length = q.mMaxCount) :
    q.grow = if xs.length ≤ uint (q.mMaxCount * 3) / 2 + 1 then
      .ok { q with
        mEntries := xs.map some ++ List.replicate (uint (q.mMaxCount * 3) / 2 + 1 - xs.length) none
        mHead := 0
        mTail := xs.length
        mMaxCount := uint (q.mMaxCount * 3) / 2 + 1 }
    else .error .outOfArray := by
  have hhead := h.head_lt
  have hmax := h.max_le
  have htail : q.mTail = q.mHead := by
    rw [h.tail, hfull, Nat.add_mod_right, Nat.mod_eq_of_lt hhead]
  have hlen : uint (q.mCount + (2 ^ 32 - q.mHead)) = q.mMaxCount - q.mHead := by
    rw [lastCapacity] at hmax
    rw [h.count, hfull, uint]
    omega
  have hfirst :
      cells q.mEntries q.mHead (q.mMaxCount - q.mHead) = .ok (q.mEntries.drop q.mHead) := by
    rw [cells, if_pos (by rw [h.size]; omega), List.take_of_length_le]
    rw [List.length_drop, h.size]
  have hsecond : cells q.mEntries 0 q.mHead = .ok (q.mEntries.take q.mHead) := by
    rw [cells, if_pos (by rw [h.size]; omega), List.drop_zero]
  have hboth : q.mEntries.drop q.mHead ++ q.mEntries.take q.mHead = xs.map some := by
    rw [← h.ring.chunks (by rw [h.size]; omega), h.size]
    congr
    omega
  have hsum : uint (q.mMaxCount - q.mHead + q.mHead) = xs.length := by
    rw [Nat.sub_add_cancel (Nat.le_of_lt hhead), hfull]
    exact h.uint_eq (Nat.le_refl _)
  rw [grow, htail, if_neg (Nat.lt_irrefl _), if_neg (Nat.lt_irrefl _), hlen, hsum]
  simp only [hfirst, hsecond, bind, Except.bind, hboth, List.length_map, pure, Except.pure]

theorem put (hroom : xs.length < q.mMaxCount) (item : α) :
    ∃ q', q.put item = .ok q' ∧ q'.Holds (xs ++ [item]) := by
  have htail := h.tail_lt
  refine ⟨_, if_pos (h.size ▸ htail), ?_, ?_, ?_, ?_, h.cap⟩
  · have := h.ring.push (h.size ▸ hroom) item
    rwa [h.size, ← h.tail] at this
  · exact (List.length_set ..).trans h.size
  · change uint (q.mTail + 1) % q.mMaxCount = (q.mHead + (xs ++ [item]).length) % q.mMaxCount
    have hnext : uint (q.mTail + 1) = q.mTail + 1 := h.uint_eq htail
    rw [hnext, h.tail, Nat.mod_add_mod, List.length_append, Nat.add_assoc]
    rfl
  · change uint (q.mCount + 1) = _
    rw [h.count, h.uint_eq hroom, List.length_append]
    rfl

theorem push (hfits : xs.length ≠ lastCapacity) (item : α) :
    ∃ q', q.push item = .ok q' ∧ q'.Holds (xs ++ [item]) := by
  rw [CircleQueue.push, h.count]
  by_cases hfull : xs.length ≥ q.mMaxCount
  · have heq : xs.length = q.mMaxCount := Nat.le_antisymm h.le hfull
    obtain ⟨k, hk, hcap⟩ := h.cap
    obtain ⟨hk', hsmall⟩ := capacity_small (hcap ▸ heq ▸ hfits) hk
    have hnew : uint (q.mMaxCount * 3) / 2 + 1 = capacity (k + 1) := by
      rw [hcap, uint, Nat.mod_eq_of_lt hsmall, capacity]
    have hmore : xs.length < capacity (k + 1) := by
      rw [heq, hcap, capacity]
      omega
    rw [if_pos hfull, h.grow_eq heq, hnew, if_pos (Nat.le_of_lt hmore)]
    have hnext :
        (⟨xs.map some ++ List.replicate (capacity (k + 1) - xs.length) none, 0, xs.length, q.mCount,
        capacity (k + 1)⟩ : CircleQueue α).Holds xs := by
      have hlen :
          (xs.map some ++ List.replicate (capacity (k + 1) - xs.length) (none : Option α)).length =
          capacity (k + 1) := by
        rw [List.length_append, List.length_map, List.length_replicate]
        omega
      refine ⟨.unrolled xs _ (by omega), hlen, ?_, h.count, k + 1, hk', rfl⟩
      change xs.length = (0 + xs.length) % _
      rw [Nat.zero_add, Nat.mod_eq_of_lt hmore]
    exact hnext.put hmore item
  · rw [if_neg hfull]
    exact h.put (Nat.lt_of_not_le hfull) item

/-- Behind the last capacity the new entries are too few. -/
theorem push_full (hfull : xs.length = lastCapacity) (item : α) :
    q.push item = .error .outOfArray := by
  have heq : xs.length = q.mMaxCount := Nat.le_antisymm h.le (hfull ▸ h.max_le)
  have hsmall : ¬ lastCapacity ≤ uint (lastCapacity * 3) / 2 + 1 := by decide
  rw [CircleQueue.push, h.count, if_pos (Nat.le_of_eq heq.symm), h.grow_eq heq, ← heq, hfull,
    if_neg hsmall]
  rfl

end

theorem first (h : q.Holds (x :: xs)) : q.first = .ok x := by
  rw [CircleQueue.first, h.ring.first]

theorem count_pos (h : q.Holds (x :: xs)) : q.mCount > 0 := h.count ▸ Nat.succ_pos _

theorem pop (h : q.Holds xs) : ∃ q', q.pop = .ok (xs.head?, q') ∧ q'.Holds xs.tail := by
  cases xs with
  | nil => exact ⟨q, if_neg (h.count ▸ Nat.lt_irrefl 0), h⟩
  | cons x xs =>
    have hnext : uint (q.mHead + 1) % q.mMaxCount = (q.mHead + 1) % q.mEntries.length := by
      rw [h.uint_eq h.head_lt, h.size]
    refine ⟨{ q with mHead := uint (q.mHead + 1) % q.mMaxCount, mCount := q.mCount - 1 }, ?_, ?_,
      h.size, ?_,
      ?_, h.cap⟩
    · rw [CircleQueue.pop, if_pos h.count_pos, h.first]
      rfl
    · exact hnext ▸ h.ring.pop
    · change q.mTail = (uint (q.mHead + 1) % q.mMaxCount + _) % q.mMaxCount
      rw [h.uint_eq (Nat.succ_le_of_lt h.head_lt), Nat.mod_add_mod, h.tail, List.length_cons,
        List.tail_cons,
        Nat.succ_add, Nat.add_succ]
    · exact congrArg (· - 1) h.count

theorem top (h : q.Holds xs) : q.top = .ok xs.head? := by
  cases xs with
  | nil => exact if_neg (h.count ▸ Nat.lt_irrefl 0)
  | cons x xs =>
    rw [CircleQueue.top, if_pos h.count_pos, h.first]
    rfl

theorem getLength (h : q.Holds xs) : q.getLength = xs.length := by
  have hlt : xs.length < 2 ^ 31 := Nat.lt_of_le_of_lt (h.le.trans h.max_le) (by decide)
  rw [CircleQueue.getLength, h.count, Codec.toInt_ofNat_of_lt hlt]

/-- A call answers as the unbounded queue does. -/
theorem call (h : q.Holds xs) {op : Op α}
    (hfits : ∀ item, op = .push item → xs.length ≠ lastCapacity) :
    ∃ q', q.call op = .ok ((listCall xs op).1, q') ∧ q'.Holds (listCall xs op).2 := by
  cases op with
  | push item =>
    obtain ⟨q', hpush, h'⟩ := h.push (hfits item rfl) item
    exact ⟨q', by rw [CircleQueue.call, hpush]; rfl, h'⟩
  | pop =>
    obtain ⟨q', hpop, h'⟩ := h.pop
    exact ⟨q', by rw [CircleQueue.call, hpop]; rfl, h'⟩
  | top => exact ⟨q, by rw [CircleQueue.call, h.top]; rfl, h⟩
  | getLength => exact ⟨q, by rw [CircleQueue.call, h.getLength]; rfl, h⟩

/-! ## Runs -/

theorem calls_cons {op : Op α} {ops : List (Op α)} {ret : Ret α} {rets : List (Ret α)}
    {q₁ q' : CircleQueue α} (hcall : q.call op = .ok (ret, q₁)) :
    q.calls (op :: ops) = .ok (ret :: rets, q') ↔ q₁.calls ops = .ok (rets, q') := by
  rw [calls, hcall]
  change (q₁.calls ops >>= fun r => Except.ok (ret :: r.1, r.2)) = _ ↔ _
  cases q₁.calls ops with
  | error e => exact iff_of_false nofun nofun
  | ok r =>
    constructor <;> rintro h <;> cases h
    · rfl
    · rfl

/-- From any items on, the queue goes on as the unbounded one just if it has room. -/
theorem calls_iff (h : q.Holds xs) (ops : List (Op α)) :
    (∃ q', q.calls ops = .ok (listCalls xs ops, q') ∧
      q'.mHead < q'.mMaxCount ∧ q'.mTail < q'.mMaxCount) ↔ Fits xs ops := by
  induction ops generalizing q xs with
  | nil => exact iff_of_true ⟨q, rfl, h.head_lt, h.tail_lt⟩ trivial
  | cons op ops ih =>
    by_cases hfits : ∀ item, op = .push item → xs.length ≠ lastCapacity
    · obtain ⟨q₁, hcall, h₁⟩ := h.call hfits
      simp only [Fits, ← ih h₁, listCalls, calls_cons hcall, and_iff_right hfits]
    · refine iff_of_false ?_ fun hf => hfits hf.1
      obtain ⟨item, rfl, hfull⟩ : ∃ item, op = .push item ∧ xs.length = lastCapacity := by
        simpa using hfits
      rintro ⟨q', hrest, -⟩
      rw [calls, CircleQueue.call, h.push_full hfull item] at hrest
      cases hrest

end Holds

/-- **The queue is first-in first-out** for the calls that do not push an item onto `lastCapacity`
of them, and only for those. -/
theorem circle_queue_fifo (ops : List (Op α)) :
    (∃ q, (new : CircleQueue α).calls ops = .ok (listCalls [] ops, q) ∧
      q.mHead < q.mMaxCount ∧ q.mTail < q.mMaxCount) ↔ Fits [] ops :=
  Holds.new.calls_iff ops

theorem fits_pushes (x : α) (n : ℕ) (xs : List α) (h : xs.length ≤ lastCapacity) :
    Fits xs (List.replicate n (.push x)) ↔ xs.length + n ≤ lastCapacity := by
  induction n generalizing xs with
  | zero => exact iff_of_true trivial h
  | succ n ih =>
    rw [List.replicate_succ, Fits]
    by_cases hfull : xs.length = lastCapacity
    · exact iff_of_false (fun hf => hf.1 x rfl hfull) (by omega)
    · rw [and_iff_right fun _ _ => hfull, ih _ (by simp [listCall]; omega)]
      simp only [listCall, List.length_append, List.length_singleton]
      omega

/-- One push too many writes behind the new entries. -/
theorem circle_queue_overflows :
    ¬ ∃ q, (new : CircleQueue Unit).calls (List.replicate (lastCapacity + 1) (.push ())) =
        .ok (listCalls [] (List.replicate (lastCapacity + 1) (.push ())), q) ∧
      q.mHead < q.mMaxCount ∧ q.mTail < q.mMaxCount := by
  intro h
  have hfits :=
    (fits_pushes () (lastCapacity + 1) [] (Nat.zero_le _)).mp ((Holds.new.calls_iff _).mp h)
  exact absurd hfits (by rw [List.length_nil]; omega)

end CircleQueue

end Spserver
