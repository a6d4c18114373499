import Mathlib.Algebra.BigOperators.Group.Finset.Basic
import Mathlib.Data.Int.Cast.Basic

/-!
# Reading and writing the storage file (`fs/ovl_stg.c`)

A call of `file_read` or `file_write` may move fewer bytes than it was asked for, so
`read_bytes` and `write_bytes` repeat it. Which of the calls move how much, and which fail, is
up to the filesystem that the storage file is on: a sequence of answers, of which each call
takes the next. The bytes around `buf` are a memory with `buf` at address 0.

The counters are unbounded: the sum of `read_bytes` passes `amount` only where it is not the
amount that was read any more.
-/

namespace Ovlfs

open List

/-- What becomes of a call of `file_read` or `file_write`: at most `more + 1` bytes are moved, or
the call fails with `-(code + 1)`. -/
inductive Answer where
  | moves (more : ℕ)
  | fails (code : ℕ)
deriving DecidableEq

def Answer.offers : Answer → ℕ
  | .moves more => more + 1
  | .fails _ => 0

/-- How many bytes the first `k` answers can move. -/
def offered (answers : ℕ → Answer) (k : ℕ) : ℕ :=
  ∑ c ∈ Finset.range k, (answers c).offers

section Bytes

variable {β : Type}

def storeBytes (buf : ℤ → β) (dst : ℤ) (data : List β) : ℤ → β := fun i =>
  if dst ≤ i then data[(i - dst).toNat]?.getD (buf i) else buf i

/-- The `count` bytes from an address on. -/
def loadBytes (buf : ℤ → β) (src : ℤ) (count : ℕ) : List β :=
  (List.range count).map fun i : ℕ => buf (src + i)

/-- `file_read(fd, buf, count)`: what it returns, the bytes it stores, and what is left of the
file behind its position. -/
def fileRead (answer : Answer) (count : ℕ) (file : List β) : ℤ × List β × List β :=
  match answer with
  | .moves more =>
    let n := min (min (more + 1) count) file.length
    (n, file.take n, file.drop n)
  | .fails code => (-(code + 1), [], file)

/-- `file_write(fd, buf, count)`: what it returns, and how many bytes it writes. -/
def fileWrite (answer : Answer) (count : ℕ) : ℤ × ℕ :=
  match answer with
  | .moves more =>
    let n := min (more + 1) count
    (n, n)
  | .fails code => (-(code + 1), 0)

/-- `EIO`. -/
def eio : ℤ := 5

/-! ## `read_bytes` -/

/-- The variables of `read_bytes`, the memory, the file, and how many calls were made. -/
structure ReadState (β : Type) where
  totRd : ℤ
  rdAmount : ℤ
  retCode : ℤ
  buf : ℤ → β
  file : List β
  calls : ℕ

/-- The body of the loop of `read_bytes`. -/
def readStep (amount : ℕ) (answers : ℕ → Answer) (s : ReadState β) : ReadState β :=
  let r := fileRead (answers s.calls) (amount - s.rdAmount).toNat s.file
  { totRd := if 0 < r.1 then s.totRd + r.1 else s.totRd
    rdAmount := r.1
    retCode := if 0 < r.1 then s.retCode else if r.1 = 0 then -eio else r.1
    buf := storeBytes s.buf s.rdAmount r.2.1
    file := r.2.2
    calls := s.calls + 1 }

/-- The loop of `read_bytes`. -/
def readLoop (amount : ℕ) (answers : ℕ → Answer) : ℕ → ReadState β → Option (ReadState β)
  | 0, _ => none
  | n + 1, s =>
    if s.totRd < amount ∧ s.retCode = 0 then readLoop amount answers n (readStep amount answers s)
    else some s

/-- The start of `read_bytes`. -/
def ReadState.start (buf : ℤ → β) (file : List β) : ReadState β := ⟨0, 0, 0, buf, file, 0⟩

/-- What `read_bytes` returns. -/
def ReadState.result (s : ReadState β) : ℤ :=
  if s.retCode = 0 then s.rdAmount else s.retCode

/-- `read_bytes(fd, buf, amount)`. -/
def readBytes (fuel amount : ℕ) (answers : ℕ → Answer) (buf : ℤ → β) (file : List β) :
    Option (ℤ × ReadState β) :=
  (readLoop amount answers fuel (.start buf file)).map fun s => (s.result, s)

/-! ## `write_bytes` -/

/-- The variables of `write_bytes`, what was written, and how many calls were made. -/
structure WriteState (β : Type) where
  wrAmount : ℤ
  retCode : ℤ
  written : List β
  calls : ℕ

/-- The body of the loop of `write_bytes`. -/
def writeStep (amount : ℕ) (answers : ℕ → Answer) (buf : ℤ → β) (s : WriteState β) :
    WriteState β :=
  let r := fileWrite (answers s.calls) (amount - s.wrAmount).toNat
  { wrAmount := if 0 < r.1 then s.wrAmount + r.1 else s.wrAmount
    retCode := r.1
    written := s.written ++ loadBytes buf s.wrAmount r.2
    calls := s.calls + 1 }

/-- The loop of `write_bytes`. -/
def writeLoop (amount : ℕ) (answers : ℕ → Answer) (buf : ℤ → β) :
    ℕ → WriteState β → Option (WriteState β)
  | 0, _ => none
  | n + 1, s =>
    if s.wrAmount < amount ∧ 0 ≤ s.retCode then
      writeLoop amount answers buf n (writeStep amount answers buf s)
    else some s

/-- The start of `write_bytes`. -/
def WriteState.start : WriteState β := ⟨0, 0, [], 0⟩

/-- What `write_bytes` returns. -/
def WriteState.result (s : WriteState β) : ℤ :=
  if 0 ≤ s.retCode then s.wrAmount else s.retCode

/-- `write_bytes(fd, buf, amount)`. -/
def writeBytes (fuel amount : ℕ) (answers : ℕ → Answer) (buf : ℤ → β) :
    Option (ℤ × WriteState β) :=
  (writeLoop amount answers buf fuel .start).map fun s => (s.result, s)

variable {amount : ℕ} {answers : ℕ → Answer} {buf : ℤ → β} {file : List β}

@[simp] theorem offered_zero : offered answers 0 = 0 := Finset.sum_range_zero _

theorem offered_succ (k : ℕ) :
    offered answers (k + 1) = offered answers k + (answers k).offers :=
  Finset.sum_range_succ _ _

theorem offered_mono {j k : ℕ} (h : j ≤ k) : offered answers j ≤ offered answers k := by
  induction h with
  | refl => exact le_rfl
  | step _ ih => exact ih.trans ((Nat.le_add_right _ _).trans (offered_succ _).ge)

@[simp] theorem storeBytes_nil (dst : ℤ) : storeBytes buf dst [] = buf := by
  funext i
  simp [storeBytes]

theorem storeBytes_outside {dst i : ℤ} {data : List β} (h : i < dst ∨ dst + data.length ≤ i) :
    storeBytes buf dst data i = buf i := by
  by_cases hle : dst ≤ i
  · have hlen : data.length ≤ (i - dst).toNat := by omega
    simp [storeBytes, hle, getElem?_eq_none hlen]
  · simp [storeBytes, hle]

theorem storeBytes_zero {data : List β} {i : ℕ} (h : i < data.length) :
    data[i]? = some (storeBytes buf 0 data i) := by
  simp [storeBytes, h]

/-! ## What the loop of `read_bytes` keeps -/

/-- While no call has failed: the bytes outside `buf[0..amount)` are as before, what was read is
counted, and every call moved a byte. Unless the first call moved everything, `rdAmount` stays
below the amount. -/
structure Reading (amount : ℕ) (answers : ℕ → Answer) (buf : ℤ → β) (file : List β)
    (s : ReadState β) : Prop where
  outside : ∀ i, i < 0 ∨ amount ≤ i → s.buf i = buf i
  retCode : s.retCode = 0
  nonneg : 0 ≤ s.rdAmount
  le_total : s.rdAmount ≤ s.totRd
  le_amount : s.rdAmount ≤ amount
  consumed : s.totRd + s.file.length = file.length
  moved : ∀ c < s.calls, 0 < (answers c).offers
  total_le : s.totRd ≤ offered answers s.calls
  total_eq : s.totRd < amount → amount ≤ file.length → s.totRd = offered answers s.calls
  first : s.calls = 0 → s = .start buf file
  whole : 0 < s.calls → amount ≤ (answers 0).offers → amount ≤ file.length →
    s.totRd = amount ∧ s.rdAmount = amount ∧ ∀ i : ℕ, i < amount → file[i]? = some (s.buf i)
  later : 0 < s.calls → (answers 0).offers < amount → 0 < s.rdAmount ∧ s.rdAmount < amount

/-- A call has failed, or found the end of the file, before the amount was reached. -/
structure ReadFailed (amount : ℕ) (answers : ℕ → Answer) (buf : ℤ → β) (file : List β)
    (s : ReadState β) : Prop where
  outside : ∀ i, i < 0 ∨ amount ≤ i → s.buf i = buf i
  retCode : s.retCode < 0
  reason : file.length < amount ∨
    ∃ c < s.calls, (answers c).offers = 0 ∧ offered answers c < amount

theorem Reading.start : Reading amount answers buf file (.start buf file) where
  outside _ _ := rfl
  retCode := rfl
  nonneg := le_rfl
  le_total := le_rfl
  le_amount := Int.natCast_nonneg _
  consumed := Int.zero_add _
  moved _ h := absurd h (Nat.not_lt_zero _)
  total_le := Int.natCast_nonneg _
  total_eq _ _ := by simp [ReadState.start]
  first _ := rfl
  whole h := absurd h (Nat.lt_irrefl _)
  later h := absurd h (Nat.lt_irrefl _)

variable {s : ReadState β}

theorem Reading.fails {code : ℕ} (h : Reading amount answers buf file s) (hmore : s.totRd < amount)
    (hanswer : answers s.calls = .fails code) :
    ReadFailed amount answers buf file (readStep amount answers s) := by
  have hret : ¬ (0 : ℤ) < -(code + 1) := by omega
  have hne : (-(code + 1) : ℤ) ≠ 0 := by omega
  refine ⟨?_, ?_, ?_⟩
  · simpa only [readStep, fileRead, hanswer, storeBytes_nil] using h.outside
  · simp only [readStep, fileRead, hanswer, if_neg hret, if_neg hne]
    omega
  · by_cases hlen : amount ≤ file.length
    · have htotal := h.total_eq hmore hlen
      exact .inr ⟨s.calls, Nat.lt_succ_self _, by rw [hanswer, Answer.offers], by omega⟩
    · exact .inl (Nat.not_le.mp hlen)

theorem Reading.atEnd {more : ℕ} (h : Reading amount answers buf file s) (hmore : s.totRd < amount)
    (hanswer : answers s.calls = .moves more) (hend : s.file = []) :
    ReadFailed amount answers buf file (readStep amount answers s) := by
  have hconsumed := h.consumed
  rw [hend, length_nil] at hconsumed
  refine ⟨?_, ?_, .inl (by omega)⟩
  · simpa [readStep, fileRead, hanswer, hend] using h.outside
  · simp [readStep, fileRead, hanswer, hend, eio]

theorem readStep_moves {more n : ℕ} (hanswer : answers s.calls = .moves more)
    (hn : n = min (min (more + 1) (amount - s.rdAmount).toNat) s.file.length) (hpos : 0 < n) :
    readStep amount answers s = ⟨s.totRd + n, n, s.retCode,
      storeBytes s.buf s.rdAmount (s.file.take n), s.file.drop n, s.calls + 1⟩ := by
  have hpos' : (0 : ℤ) < n := Int.natCast_pos.mpr hpos
  simp only [readStep, fileRead, hanswer, ← hn, if_pos hpos']

section

variable (h : Reading amount answers buf file s)

include h

theorem Reading.moves {more n : ℕ} (hmore : s.totRd < amount)
    (hanswer : answers s.calls = .moves more)
    (hn : n = min (min (more + 1) (amount - s.rdAmount).toNat) s.file.length) (hpos : 0 < n) :
    Reading amount answers buf file ⟨s.totRd + n, n, s.retCode,
      storeBytes s.buf s.rdAmount (s.file.take n), s.file.drop n, s.calls + 1⟩ := by
  obtain ⟨houtside, hret, hnonneg, hletotal, hle, hconsumed, hmoved, htotalle, htotaleq, hfirst,
    hwhole, hlater⟩ := h
  have hlimit : (n : ℤ) ≤ amount - s.rdAmount := by omega
  have hoffer : (answers s.calls).offers = more + 1 := by rw [hanswer, Answer.offers]
  have hsucc : offered answers (s.calls + 1) = offered answers s.calls + (answers s.calls).offers :=
    offered_succ s.calls
  have hlen : (s.file.take n).length = n := by
    rw [length_take]
    omega
  refine ⟨?_, hret, Int.natCast_nonneg _, ?_, ?_, ?_, ?_, ?_, ?_, nofun, ?_, ?_⟩
  · intro i hi
    refine (storeBytes_outside ?_).trans (houtside i hi)
    rw [hlen]
    omega
  · exact le_add_of_nonneg_left (hnonneg.trans hletotal)
  · exact hlimit.trans (Int.sub_le_self _ hnonneg)
  · simp only [length_drop]
    omega
  · intro c hc
    rcases Nat.lt_succ_iff_lt_or_eq.mp hc with hc | rfl
    · exact hmoved c hc
    · exact hoffer ▸ Nat.succ_pos more
  · simp only [hsucc, hoffer]
    omega
  · -- neither the limit nor the end of the file was in the way, or nothing is missing any more
    intro hlt hfile
    change s.totRd + n < amount at hlt
    have heq := htotaleq hmore hfile
    simp only [hsucc, hoffer]
    omega
  · intro _ hoffers hfile
    rcases Nat.eq_zero_or_pos s.calls with hzero | hcalls
    · obtain rfl := hfirst hzero
      have hoffers' : amount ≤ more + 1 := by rwa [← hoffer, hzero]
      simp only [ReadState.start] at hn hmore ⊢
      have hall : n = amount := by omega
      refine ⟨by omega, by omega, fun i hi => ?_⟩
      rw [← storeBytes_zero (by rw [length_take]; omega), getElem?_take_of_lt (by omega)]
    · have htotal := (hwhole hcalls hoffers hfile).1
      omega
  · intro _ hoffers
    refine ⟨Int.natCast_pos.mpr hpos, ?_⟩
    rcases Nat.eq_zero_or_pos s.calls with hzero | hcalls
    · rw [hzero] at hoffer
      change (n : ℤ) < amount
      omega
    · have hpos' := (hlater hcalls hoffers).1
      change (n : ℤ) < amount
      omega

theorem Reading.step (hmore : s.totRd < amount) :
    (Reading amount answers buf file (readStep amount answers s) ∧
      (readStep amount answers s).file.length < s.file.length) ∨
    ReadFailed amount answers buf file (readStep amount answers s) := by
  cases hanswer : answers s.calls with
  | fails code => exact .inr (h.fails hmore hanswer)
  | moves more =>
    rcases Nat.eq_zero_or_pos s.file.length with hend | hfile
    · exact .inr (h.atEnd hmore hanswer (length_eq_zero_iff.mp hend))
    · have hle := h.le_total
      obtain ⟨n, hn⟩ : ∃ n, n = min (min (more + 1) (amount - s.rdAmount).toNat) s.file.length :=
        ⟨_, rfl⟩
      have hpos : 0 < n := by omega
      rw [readStep_moves hanswer hn hpos]
      refine .inl ⟨h.moves hmore hanswer hn hpos, ?_⟩
      simp only [length_drop]
      omega

theorem Reading.loop {fuel : ℕ} (hfuel : s.file.length + 1 < fuel) :
    ∃ s', readLoop amount answers fuel s = some s' ∧
      (Reading amount answers buf file s' ∧ amount ≤ s'.totRd ∨
        ReadFailed amount answers buf file s') := by
  induction fuel generalizing s with
  | zero => exact absurd hfuel (Nat.not_lt_zero _)
  | succ n ih =>
    rw [readLoop]
    by_cases hmore : s.totRd < amount
    · rw [if_pos ⟨hmore, h.retCode⟩]
      rcases h.step hmore with ⟨hstep, hless⟩ | hfailed
      · exact ih hstep (by omega)
      · obtain ⟨m, rfl⟩ : ∃ m, n = m + 1 := ⟨n - 1, by omega⟩
        have hstop := hfailed.retCode.ne
        exact ⟨_, if_neg fun hcond => hstop hcond.2, .inr hfailed⟩
    · rw [if_neg fun hcond => hmore hcond.1]
      exact ⟨s, rfl, .inl ⟨h, not_lt.mp hmore⟩⟩

end

/-! ## What is asked of the two functions -/

/-- `read_bytes` has filled `buf[0..amount)` with the next bytes of the file and nothing else, and
returns the amount; or it returns a negative code because the file ended or a call failed. -/
structure ReadFine (amount : ℕ) (answers : ℕ → Answer) (buf : ℤ → β) (file : List β) (ret : ℤ)
    (s : ReadState β) : Prop where
  outside : ∀ i, i < 0 ∨ amount ≤ i → s.buf i = buf i
  result : (ret = amount ∧ amount ≤ file.length ∧ ∀ i : ℕ, i < amount → file[i]? = some (s.buf i)) ∨
    ret < 0 ∧ (file.length < amount ∨ ∃ c < s.calls, (answers c).offers = 0)

/-- When `read_bytes` does that: the file ends before the amount, or its first call may move the
whole amount, or a call fails before the calls could move the amount. -/
def ReadsWell (amount : ℕ) (answers : ℕ → Answer) (file : List β) : Prop :=
  file.length < amount ∨ amount ≤ (answers 0).offers ∨
    ∀ k, (∀ c < k, 0 < (answers c).offers) → offered answers k < amount

/-- `write_bytes` has written `buf[0..amount)` and nothing else, and returns the amount; or it
returns a negative code because a call failed, and has written bytes from the front of `buf`. -/
def WriteFine (amount : ℕ) (answers : ℕ → Answer) (buf : ℤ → β) (ret : ℤ) (s : WriteState β) :
    Prop :=
  (ret = amount ∧ s.written = loadBytes buf 0 amount) ∨
    ret < 0 ∧ (∃ c < s.calls, (answers c).offers = 0) ∧ s.written <+: loadBytes buf 0 amount

theorem Reading.fine_iff (h : Reading amount answers buf file s) (hdone : amount ≤ s.totRd) :
    ReadFine amount answers buf file s.result s ↔ ReadsWell amount answers file := by
  have hresult : s.result = s.rdAmount := if_pos h.retCode
  have hfile : amount ≤ file.length := by
    have hconsumed := h.consumed
    omega
  constructor
  · intro hfine
    by_contra hnot
    obtain ⟨-, hnot⟩ := not_or.mp hnot
    obtain ⟨hoffers, -⟩ := not_or.mp hnot
    have hcalls : 0 < s.calls := by
      refine Nat.pos_of_ne_zero fun hzero => ?_
      rw [h.first hzero, ReadState.start] at hdone
      dsimp only at hdone
      omega
    have hlater := h.later hcalls (not_le.mp hoffers)
    rcases hfine.result with ⟨hret, -⟩ | ⟨hret, -⟩ <;> omega
  · intro hwell
    refine ⟨h.outside, .inl ?_⟩
    rw [hresult]
    rcases Nat.eq_zero_or_pos s.calls with hzero | hcalls
    · rw [h.first hzero, ReadState.start] at hdone ⊢
      dsimp only at hdone ⊢
      exact ⟨by omega, hfile, fun i hi => by omega⟩
    · have hoffers : amount ≤ (answers 0).offers := by
        rcases hwell with hshort | hoffers | hnone
        · omega
        · exact hoffers
        · have hlt := hnone s.calls h.moved
          have hle := h.total_le
          omega
      obtain ⟨-, hrd, hbuf⟩ := h.whole hcalls hoffers hfile
      exact ⟨hrd, hfile, hbuf⟩

theorem ReadFailed.fine (h : ReadFailed amount answers buf file s) :
    ReadFine amount answers buf file s.result s := by
  have hresult : s.result = s.retCode := if_neg h.retCode.ne
  refine ⟨h.outside, .inr ⟨hresult ▸ h.retCode, ?_⟩⟩
  rcases h.reason with hshort | ⟨c, hc, hfails, -⟩
  · exact .inl hshort
  · exact .inr ⟨c, hc, hfails⟩

theorem ReadFailed.readsWell (h : ReadFailed amount answers buf file s) :
    ReadsWell amount answers file := by
  rcases h.reason with hshort | ⟨c, -, hfails, hoffered⟩
  · exact .inl hshort
  · refine .inr (.inr fun k hk => ?_)
    have hkc : k ≤ c := by
      refine not_lt.mp fun hck => ?_
      have := hk c hck
      omega
    exact (offered_mono hkc).trans_lt hoffered

/-! ## What the loop of `write_bytes` keeps -/

theorem loadBytes_add (dst : ℤ) (j k : ℕ) :
    loadBytes buf dst (j + k) = loadBytes buf dst j ++ loadBytes buf (dst + j) k := by
  rw [loadBytes, loadBytes, loadBytes, range_add, map_append, map_map]
  refine congrArg _ (map_congr_left fun i _ => ?_)
  rw [Function.comp, Int.natCast_add, add_assoc]

theorem loadBytes_prefix {j k : ℕ} (h : j ≤ k) : loadBytes buf 0 j <+: loadBytes buf 0 k := by
  obtain ⟨d, rfl⟩ := Nat.exists_eq_add_of_le h
  rw [loadBytes_add]
  exact prefix_append _ _

/-- While no call has failed, the first bytes of `buf` are written. -/
structure Writing (amount : ℕ) (buf : ℤ → β) (n : ℕ) (s : WriteState β) : Prop where
  wrAmount : s.wrAmount = n
  le_amount : n ≤ amount
  retCode : 0 ≤ s.retCode
  written : s.written = loadBytes buf 0 n

theorem Writing.step (answers : ℕ → Answer) {n : ℕ} {s : WriteState β}
    (h : Writing amount buf n s) (hmore : n < amount) :
    (∃ n', n < n' ∧ Writing amount buf n' (writeStep amount answers buf s)) ∨
    (writeStep amount answers buf s).retCode < 0 ∧
      WriteFine amount answers buf (writeStep amount answers buf s).result
        (writeStep amount answers buf s) := by
  have hlimit : ((amount : ℤ) - s.wrAmount).toNat = amount - n := by
    rw [h.wrAmount]
    omega
  cases hanswer : answers s.calls with
  | fails code =>
    have hret : (writeStep amount answers buf s).retCode = -(code + 1) := by
      simp only [writeStep, fileWrite, hanswer]
    have hneg : (writeStep amount answers buf s).retCode < 0 := by omega
    have hwritten : (writeStep amount answers buf s).written = loadBytes buf 0 n := by
      simp [writeStep, fileWrite, hanswer, loadBytes, h.written]
    refine .inr ⟨hneg, .inr ⟨?_, ⟨s.calls, Nat.lt_succ_self _, by rw [hanswer, Answer.offers]⟩, ?_⟩⟩
    · rwa [WriteState.result, if_neg (not_le.mpr hneg)]
    · rw [hwritten]
      exact loadBytes_prefix h.le_amount
  | moves more =>
    obtain ⟨d, hd⟩ : ∃ d, d = min (more + 1) (amount - n) := ⟨_, rfl⟩
    have hpos : (0 : ℤ) < d := by omega
    have hstep : writeStep amount answers buf s =
        ⟨s.wrAmount + d, d, s.written ++ loadBytes buf s.wrAmount d, s.calls + 1⟩ := by
      simp only [writeStep, fileWrite, hanswer, hlimit, ← hd, if_pos hpos]
    rw [hstep]
    refine .inl ⟨n + d, by omega, ?_, by omega, hpos.le, ?_⟩
    · rw [h.wrAmount, Int.natCast_add]
    · rw [h.written, h.wrAmount, loadBytes_add, zero_add]

theorem Writing.loop (answers : ℕ → Answer) {n : ℕ} {s : WriteState β}
    (h : Writing amount buf n s) {fuel : ℕ} (hfuel : amount - n + 1 < fuel) :
    ∃ s', writeLoop amount answers buf fuel s = some s' ∧
      WriteFine amount answers buf s'.result s' := by
  induction fuel generalizing n s with
  | zero => exact absurd hfuel (Nat.not_lt_zero _)
  | succ m ih =>
    rw [writeLoop]
    by_cases hmore : n < amount
    · rw [if_pos ⟨by rw [h.wrAmount]; exact Int.ofNat_lt.mpr hmore, h.retCode⟩]
      rcases h.step answers hmore with ⟨n', hlt, hstep⟩ | ⟨hneg, hfine⟩
      · exact ih hstep (by omega)
      · obtain ⟨k, rfl⟩ : ∃ k, m = k + 1 := ⟨m - 1, by omega⟩
        exact ⟨_, if_neg fun hcond => not_le.mpr hneg hcond.2, hfine⟩
    · have heq : n = amount := le_antisymm h.le_amount (not_lt.mp hmore)
      have hresult : s.result = s.wrAmount := if_pos h.retCode
      rw [if_neg fun hcond => hmore (by rw [h.wrAmount] at hcond; exact Int.ofNat_lt.mp hcond.1)]
      exact ⟨s, rfl, .inl ⟨by rw [hresult, h.wrAmount, heq], by rw [h.written, heq]⟩⟩

/-- **Partial transfers.** `read_bytes` and `write_bytes` end for every amount and all answers.
`write_bytes` always does what is asked; `read_bytes` does so if and only if the file ends too
early, or the first call may move the whole amount, or a call fails before the calls could have
moved the amount. -/
theorem partial_transfers (amount : ℕ) (answers : ℕ → Answer) (buf : ℤ → β) (file : List β) :
    (∀ fuel, file.length + 1 < fuel → ∃ ret s,
      readBytes fuel amount answers buf file = some (ret, s) ∧
      (ReadFine amount answers buf file ret s ↔ ReadsWell amount answers file)) ∧
    ∀ fuel, amount + 1 < fuel → ∃ ret s, writeBytes fuel amount answers buf = some (ret, s) ∧
      WriteFine amount answers buf ret s := by
  refine ⟨fun fuel hfuel => ?_, fun fuel hfuel => ?_⟩
  · have hstart : Reading amount answers buf file (.start buf file) := Reading.start
    obtain ⟨s, hrun, hend⟩ := hstart.loop hfuel
    refine ⟨s.result, s, by rw [readBytes, hrun, Option.map_some], ?_⟩
    rcases hend with ⟨hreading, hdone⟩ | hfailed
    · exact hreading.fine_iff hdone
    · exact iff_of_true hfailed.fine hfailed.readsWell
  · have hstart : Writing amount buf 0 (WriteState.start : WriteState β) :=
      ⟨rfl, Nat.zero_le _, le_rfl, rfl⟩
    obtain ⟨s, hrun, hfine⟩ := hstart.loop answers hfuel
    exact ⟨s.result, s, by rw [writeBytes, hrun, Option.map_some], hfine⟩

/-- Four bytes that the first call may move, and that are written in two pairs. -/
theorem partial_transfers_four :
    (∃ ret s, readBytes 6 4 (fun _ => .moves 3) (fun _ => 0) [10, 11, 12, 13] = some (ret, s) ∧
      (ReadFine 4 (fun _ => .moves 3) (fun _ => 0) [10, 11, 12, 13] ret s ↔
        ReadsWell 4 (fun _ => .moves 3) [10, 11, 12, 13])) ∧
    ∃ ret s, writeBytes 6 4 (fun _ => .moves 1) (fun i => i) = some (ret, s) ∧
      WriteFine 4 (fun _ => .moves 1) (fun i => i) ret s :=
  ⟨(partial_transfers 4 (fun _ => .moves 3) (fun _ => 0) [10, 11, 12, 13]).1 6 (by decide),
    (partial_transfers 4 (fun _ => .moves 1) (fun i => i) []).2 6 (by decide)⟩

/-- Four bytes that come in two pairs: `read_bytes` reports two. Where they come as a pair and two
single bytes, the last of them is stored over the second. -/
theorem two_short_reads :
    (∃ s, readBytes 6 4 (fun _ => .moves 1) (fun _ => 0) [10, 11, 12, 13] = some (2, s) ∧
      ¬ ReadFine 4 (fun _ => .moves 1) (fun _ => 0) [10, 11, 12, 13] 2 s) ∧
    ∃ s, readBytes 6 4 (fun c => if c = 0 then .moves 1 else .moves 0) (fun _ => 0)
      [10, 11, 12, 13] = some (1, s) ∧ loadBytes s.buf 0 4 = [10, 13, 12, 0] := by
  refine ⟨⟨_, rfl, fun h => ?_⟩, _, rfl, by decide⟩
  rcases h.result with ⟨hret, -⟩ | ⟨hret, -⟩
  · cases hret
  · cases hret

end Bytes

end Ovlfs
