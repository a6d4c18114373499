import Mathlib.Data.List.Range
import Mathlib.Data.List.Perm.Basic
import Mathlib.Tactic.Ring

/-!
# The session manager (`spserver/spsession.cpp`)

Sessions are kept in a table of 1024 rows with 1024 columns; the unused entries of the allocated
rows form a free list, threaded through the entries by key. Keys and links are 16-bit fields, so a
key of row 64 or above does not fit.

A run is a sequence of `allocKey`, `put`, `get` and `remove`; beside the manager its state carries
the unused keys that the caller was given and the live sessions. Free keys, handed-out keys and live
keys together are exactly the keys of the allocated rows, as long as `allocKey` does not need the
64th row.
-/

namespace Spserver

open Function List

/-- `eColPerRow`. -/
def eColPerRow : ℕ := 1024

/-- `eRowNum`. -/
def eRowNum : ℕ := 64 * 16

/-- An `SP_SessionEntry`; `mSeq` and `mNext` are 16-bit fields. -/
structure SessionEntry (σ : Type) where
  seq : ℕ
  next : ℕ
  session : Option σ

/-- An entry as `calloc` leaves it. -/
def SessionEntry.zero {σ : Type} : SessionEntry σ := ⟨0, 0, none⟩

/-- An `SP_SessionManager`; `mArray` has `eRowNum` rows and `mFreeList` is a 16-bit field. -/
structure SessionManager (σ : Type) where
  count : ℤ
  array : ℕ → Option (ℕ → SessionEntry σ)
  freeCount : ℤ
  freeList : ℕ

/-- What goes wrong in a misused manager. -/
inductive MgrFault where
  /-- a row that does not exist is accessed -/
  | nullRow
  /-- an `assert` fails -/
  | assertFailed
  deriving DecidableEq, Repr

namespace SessionManager

variable {σ : Type}

/-- `SP_SessionManager::SP_SessionManager()`. -/
def new : SessionManager σ := ⟨0, fun _ => none, 0, 0⟩

def findAvail (m : SessionManager σ) : Option ℕ :=
  (List.range' 1 (eRowNum - 1)).find? fun i => (m.array i).isNone

/-- `for (i = eColPerRow - 1; i >= 0; i--)`: thread the entries of a new row. -/
def fillRow (avail : ℕ) : ℕ → (ℕ → SessionEntry σ) × ℕ → (ℕ → SessionEntry σ) × ℕ
  | 0, acc => acc
  | i + 1, (row, freeList) =>
    fillRow avail i (Function.update row i { row i with next := freeList },
      (eColPerRow * avail + i) % 2 ^ 16)

/-- The first half of `allocKey`: an empty free list is filled from a new row. -/
def refill (m : SessionManager σ) : SessionManager σ :=
  if m.freeList = 0 then
    match m.findAvail with
    | some avail =>
      let (row, freeList) := fillRow avail eColPerRow (fun _ => SessionEntry.zero, m.freeList)
      { m with
        freeCount := m.freeCount + eColPerRow
        array := Function.update m.array avail (some row)
        freeList := freeList }
    | none => m
  else m

def entryAt (m : SessionManager σ) (key : ℕ) : Except MgrFault (SessionEntry σ) :=
  match m.array (key / eColPerRow) with
  | some row => .ok (row (key % eColPerRow))
  | none => .error .nullRow

def setEntry (m : SessionManager σ) (key : ℕ) (e : SessionEntry σ) : SessionManager σ :=
  { m with
    array := Function.update m.array (key / eColPerRow) ((m.array (key / eColPerRow)).map
      fun row => Function.update row (key % eColPerRow) e) }

/-- `SP_SessionManager::allocKey(seq)`: the key, 0 when there is none, and its sequence number. -/
def allocKey (m : SessionManager σ) : Except MgrFault (SessionManager σ × ℕ × ℕ) :=
  let m := m.refill
  if m.freeList > 0 then do
    let e ← m.entryAt m.freeList
    return ({ m with freeCount := m.freeCount - 1, freeList := e.next }, m.freeList, e.seq)
  else return (m, 0, 0)

/-- `SP_SessionManager::put(key, seq, session)`. -/
def put (m : SessionManager σ) (key seq : ℕ) (session : σ) :
    Except MgrFault (SessionManager σ) := do
  let e ← m.entryAt key
  if e.session.isSome then .error .assertFailed
  else if seq ≠ e.seq then .error .assertFailed
  else
    return { m.setEntry key { e with session := some session } with count := m.count + 1 }

/-- `SP_SessionManager::get(key, seq)`: the session and its sequence number. -/
def get (m : SessionManager σ) (key : ℕ) : Option σ × ℕ :=
  match m.array (key / eColPerRow) with
  | some row => ((row (key % eColPerRow)).session, (row (key % eColPerRow)).seq)
  | none => (none, 0)

/-- `SP_SessionManager::remove(key, seq)`. -/
def remove (m : SessionManager σ) (key seq : ℕ) :
    Except MgrFault (SessionManager σ × Option σ) :=
  match m.array (key / eColPerRow) with
  | none => .ok (m, none)
  | some row =>
    let e := row (key % eColPerRow)
    if seq ≠ e.seq then .error .assertFailed
    else
      .ok ({ m.setEntry key ⟨(e.seq + 1) % 2 ^ 16, m.freeList, none⟩ with
        freeList := key % 2 ^ 16
        freeCount := m.freeCount + 1
        count := m.count - 1 }, e.session)

end SessionManager

/-! ## Runs -/

/-- The manager and what its caller knows: the keys it was given and has not used, with their
sequence numbers, and the live sessions. -/
structure World (σ : Type) where
  mgr : SessionManager σ
  pending : List (ℕ × ℕ)
  live : List (ℕ × σ)

/-- The calls of a caller. -/
inductive Call (σ : Type) where
  | allocKey
  | put (key seq : ℕ) (session : σ)
  | get (key : ℕ)
  | remove (key : ℕ)

namespace World

variable {σ : Type}

def init : World σ := ⟨.new, [], []⟩

/-- A caller puts a session under a key and sequence number it was given, removes only live
sessions, and asks only for keys inside the table. -/
def Allowed (w : World σ) : Call σ → Prop
  | .allocKey => True
  | .put key seq _ => (key, seq) ∈ w.pending
  | .get key => key / eColPerRow < eRowNum
  | .remove key => ∃ s, (key, s) ∈ w.live

/-- One call; a session is removed with the sequence number that `get` reports. -/
def step (w : World σ) : Call σ → Except MgrFault (World σ)
  | .allocKey => do
    let (m, key, seq) ← w.mgr.allocKey
    return { w with mgr := m, pending := if key = 0 then w.pending else (key, seq) :: w.pending }
  | .put key seq session => do
    let m ← w.mgr.put key seq session
    return ⟨m, w.pending.filter (·.1 ≠ key), (key, session) :: w.live⟩
  | .get _ => .ok w
  | .remove key => do
    let (m, _) ← w.mgr.remove key (w.mgr.get key).2
    return { w with mgr := m, live := w.live.filter (·.1 ≠ key) }

/-- The worlds that runs reach whose calls are allowed and all meet the condition `ok`. -/
inductive Reach (ok : World σ → Call σ → Prop) : World σ → Prop where
  | init : Reach ok init
  | step {w w' : World σ} {c : Call σ} : Reach ok w → w.Allowed c → ok w c →
    w.step c = .ok w' → Reach ok w'

/-- The keys of the table still fit 16 bits: `allocKey` is not called with an empty free list
while the rows 1 to 63 are all allocated. -/
def Fits (w : World σ) : Call σ → Prop
  | .allocKey => w.mgr.freeList = 0 → ∃ i, 1 ≤ i ∧ i < 64 ∧ w.mgr.array i = none
  | _ => True

end World

/-- The free chain from a key on, through the links `next`. -/
inductive FreeChain (next : ℕ → ℕ) : ℕ → List ℕ → Prop where
  | nil : FreeChain next 0 []
  | cons {k : ℕ} {l : List ℕ} : k ≠ 0 → FreeChain next (next k) l → FreeChain next k (k :: l)

namespace SessionManager

variable {σ : Type}

def entry (m : SessionManager σ) (key : ℕ) : SessionEntry σ :=
  match m.array (key / eColPerRow) with
  | some row => row (key % eColPerRow)
  | none => .zero

end SessionManager

/-- The invariant of a run: `rows` rows are allocated, `free` is the free chain, and the keys of
the allocated rows are free, handed out or live, each exactly once. -/
structure World.Inv {σ : Type} (w : World σ) (rows : ℕ) (free : List ℕ) : Prop where
  rows_lt : rows < 64
  row_some : ∀ i, (w.mgr.array i).isSome ↔ 1 ≤ i ∧ i ≤ rows
  chain : FreeChain (fun k => (w.mgr.entry k).next) w.mgr.freeList free
  freeCount : w.mgr.freeCount = free.length
  count : w.mgr.count = w.live.length
  keys : (free ++ (w.pending.map Prod.fst ++ w.live.map Prod.fst)).Perm
    (List.range' eColPerRow (eColPerRow * rows))
  pending_seq : ∀ k q, (k, q) ∈ w.pending → (w.mgr.entry k).seq = q
  session : ∀ k s, (w.mgr.entry k).session = some s ↔ (k, s) ∈ w.live

/-! ## Free chains -/

namespace FreeChain

variable {next next' : ℕ → ℕ} {k : ℕ} {l : List ℕ}

theorem congr (h : FreeChain next k l) (hnext : ∀ x ∈ l, next' x = next x) :
    FreeChain next' k l := by
  induction h with
  | nil => exact .nil
  | @cons k l hk _ ih =>
    refine .cons hk ?_
    rw [hnext k (mem_cons_self ..)]
    exact ih fun x hx => hnext x (mem_cons_of_mem _ hx)

theorem eq_nil (h : FreeChain next 0 l) : l = [] := by
  cases h with
  | nil => rfl
  | cons hk _ => exact absurd rfl hk

theorem eq_cons (h : FreeChain next k l) (hk : k ≠ 0) :
    ∃ l', l = k :: l' ∧ FreeChain next (next k) l' := by
  cases h with
  | nil => exact absurd rfl hk
  | cons _ h => exact ⟨_, rfl, h⟩

theorem range' {n s : ℕ} (hs : s ≠ 0)
    (hnext : ∀ i < n, next (s + i) = if i + 1 = n then 0 else s + i + 1) :
    FreeChain next (if n = 0 then 0 else s) (List.range' s n) := by
  induction n generalizing s with
  | zero => exact .nil
  | succ n ih =>
    rw [if_neg (Nat.succ_ne_zero n), List.range'_succ]
    refine .cons hs ?_
    have h0 := hnext 0 (by omega)
    have htail := ih (s := s + 1) (by omega) fun i hi => by
      rw [show s + 1 + i = s + (i + 1) by omega, hnext (i + 1) (by omega)]
      split_ifs <;> omega
    rw [Nat.add_zero] at h0
    rw [h0]
    by_cases hn : n = 0
    · subst hn
      exact .nil
    · rw [if_neg (by omega)]
      rwa [if_neg hn] at htail

end FreeChain

/-! ## Entries -/

namespace SessionManager

variable {σ : Type} {m : SessionManager σ}

theorem entryAt_eq {key : ℕ} (h : (m.array (key / eColPerRow)).isSome) :
    m.entryAt key = .ok (m.entry key) := by
  obtain ⟨row, hrow⟩ := Option.isSome_iff_exists.mp h
  rw [entryAt, entry, hrow]

theorem get_eq {key : ℕ} : m.get key = ((m.entry key).session, (m.entry key).seq) := by
  rw [get, entry]
  cases m.array (key / eColPerRow) <;> rfl

theorem entry_setEntry {key : ℕ} (h : (m.array (key / eColPerRow)).isSome) (e : SessionEntry σ)
    (k : ℕ) : (m.setEntry key e).entry k = if k = key then e else m.entry k := by
  obtain ⟨row, hrow⟩ := Option.isSome_iff_exists.mp h
  rw [entry, setEntry, hrow]
  by_cases hk : k = key
  · subst hk
    simp
  · rw [if_neg hk, entry]
    by_cases hrowk : k / eColPerRow = key / eColPerRow
    · have hcol : k % eColPerRow ≠ key % eColPerRow := by
        intro hcol
        refine hk ?_
        rw [← Nat.div_add_mod k eColPerRow, ← Nat.div_add_mod key eColPerRow, hrowk, hcol]
      simp [hrowk, hrow, hcol]
    · simp [update_of_ne hrowk]

theorem isSome_setEntry (key : ℕ) (e : SessionEntry σ) (i : ℕ) :
    ((m.setEntry key e).array i).isSome = (m.array i).isSome := by
  rw [setEntry]
  by_cases hi : i = key / eColPerRow
  · subst hi
    simp
  · simp [update_of_ne hi]

theorem fillRow_spec (avail n : ℕ) (row : ℕ → SessionEntry σ) (fl : ℕ) :
    (fillRow avail n (row, fl)).2 = (if n = 0 then fl else eColPerRow * avail % 2 ^ 16) ∧
      ∀ i, (fillRow avail n (row, fl)).1 i =
        if i < n then
          { row i with next := if i + 1 = n then fl else (eColPerRow * avail + i + 1) % 2 ^ 16 }
        else row i := by
  induction n generalizing row fl with
  | zero => exact ⟨rfl, fun i => by rw [if_neg (by omega)]; rfl⟩
  | succ n ih =>
    obtain ⟨hfl, hrow⟩ := ih (update row n { row n with next := fl })
      ((eColPerRow * avail + n) % 2 ^ 16)
    rw [fillRow]
    refine ⟨?_, fun i => ?_⟩
    · rw [hfl, if_neg (Nat.succ_ne_zero n)]
      split_ifs with hn
      · rw [hn, Nat.add_zero]
      · rfl
    · rw [hrow i]
      by_cases hi : i = n
      · subst hi
        simp
      · rw [update_of_ne hi]
        by_cases hlt : i < n
        · rw [if_pos hlt, if_pos (show i < n + 1 by omega), if_neg (show ¬ i + 1 = n + 1 by omega)]
          split_ifs with hlast
          · rw [← hlast, ← Nat.add_assoc]
          · rfl
        · rw [if_neg hlt, if_neg (by omega)]

theorem entry_refill (m : SessionManager σ) (k : ℕ) :
    (m.refill.entry k).session = (m.entry k).session ∧
      (m.refill.entry k).seq = (m.entry k).seq := by
  rw [refill]
  split_ifs with hfree
  · rcases hfind : m.findAvail with _ | avail
    · exact ⟨rfl, rfl⟩
    · have hnone : m.array avail = none := by
        have := find?_some hfind
        simpa using this
      obtain ⟨-, hrow⟩ := fillRow_spec avail eColPerRow
        (fun _ => (SessionEntry.zero : SessionEntry σ)) m.freeList
      by_cases hk : k / eColPerRow = avail
      · subst hk
        simp only [entry, update_self, hnone, hrow]
        split_ifs <;> exact ⟨rfl, rfl⟩
      · simp only [entry, update_of_ne hk, and_self]
  · exact ⟨rfl, rfl⟩

variable {key seq : ℕ} {m' : SessionManager σ}

theorem allocKey_entry (h : m.allocKey = .ok (m', key, seq)) (k : ℕ) :
    (m'.entry k).session = (m.entry k).session ∧ (m'.entry k).seq = (m.entry k).seq := by
  rw [allocKey] at h
  split at h
  · rcases he : m.refill.entryAt m.refill.freeList with f | e
    · rw [he] at h
      cases h
    · rw [he] at h
      cases h
      exact entry_refill m k
  · cases h
    exact entry_refill m k

theorem put_entry {s : σ} (h : m.put key seq s = .ok m') (k : ℕ) :
    (m'.entry k = if k = key then { m.entry key with session := some s } else m.entry k) ∧
      seq = (m.entry key).seq := by
  rw [put] at h
  rcases hrow : m.array (key / eColPerRow) with _ | row
  · rw [entryAt, hrow] at h
    cases h
  · have hsome : (m.array (key / eColPerRow)).isSome := by rw [hrow]; rfl
    rw [entryAt_eq hsome] at h
    simp only [bind, Except.bind] at h
    split at h
    · cases h
    split at h
    · cases h
    · rename_i hseq
      cases h
      exact ⟨entry_setEntry hsome _ k, not_not.mp hseq⟩

theorem remove_entry {o : Option σ} (hrow : (m.array (key / eColPerRow)).isSome)
    (h : m.remove key seq = .ok (m', o)) (k : ℕ) :
    m'.entry k = if k = key then ⟨((m.entry key).seq + 1) % 2 ^ 16, m.freeList, none⟩
      else m.entry k := by
  obtain ⟨row, hrow'⟩ := Option.isSome_iff_exists.mp hrow
  have hentry : m.entry key = row (key % eColPerRow) := by rw [entry, hrow']
  rw [remove, hrow'] at h
  simp only at h
  split_ifs at h
  · cases h
    rw [hentry]
    exact entry_setEntry hrow _ k

end SessionManager

/-! ## The steps keep the invariant -/

theorem perm_cons_filter {β : Type} {l : List (ℕ × β)} (hl : (l.map Prod.fst).Nodup) {k : ℕ}
    {b : β} (h : (k, b) ∈ l) : l.Perm ((k, b) :: l.filter (·.1 ≠ k)) := by
  induction l with
  | nil => cases h
  | cons e l ih =>
    obtain ⟨hnot, hnodup⟩ := nodup_cons.mp hl
    rcases mem_cons.mp h with rfl | hmem
    · have hrest : l.filter (fun x => decide (x.1 ≠ k)) = l := by
        refine filter_eq_self.mpr fun x hx => decide_eq_true fun hxk => hnot ?_
        exact mem_map.mpr ⟨x, hx, hxk⟩
      rw [filter_cons_of_neg (by simp), hrest]
    · have hne : e.1 ≠ k := fun hek => hnot (mem_map.mpr ⟨_, hmem, hek.symm⟩)
      rw [filter_cons_of_pos (by simpa using hne)]
      exact ((ih hnodup hmem).cons e).trans (List.Perm.swap _ _ _)

namespace World.Inv

variable {σ : Type} {w : World σ} {rows : ℕ} {free : List ℕ}

theorem init : (World.init : World σ).Inv 0 [] where
  rows_lt := by decide
  row_some i := ⟨fun h => by simp [World.init, SessionManager.new] at h, fun h => by omega⟩
  chain := .nil
  freeCount := rfl
  count := rfl
  keys := .nil
  pending_seq k q h := by cases h
  session k s := by simp [World.init, SessionManager.new, SessionManager.entry, SessionEntry.zero]

section

variable (h : w.Inv rows free)

include h

theorem nodup :
    (free ++ (w.pending.map Prod.fst ++ w.live.map Prod.fst)).Nodup :=
  h.keys.nodup_iff.mpr nodup_range'

theorem key_row {k : ℕ} (hk : k ∈ free ++ (w.pending.map Prod.fst ++ w.live.map Prod.fst)) :
    (w.mgr.array (k / eColPerRow)).isSome ∧ k ≠ 0 ∧ k < 2 ^ 16 := by
  have hrange := h.keys.mem_iff.mp hk
  rw [mem_range'_1] at hrange
  have hlt := h.rows_lt
  simp only [eColPerRow] at hrange ⊢
  refine ⟨(h.row_some _).mpr ?_, by omega, by omega⟩
  omega

theorem findAvail_eq : w.mgr.findAvail = some (rows + 1) := by
  have hlt := h.rows_lt
  rw [SessionManager.findAvail, find?_range'_eq_some]
  refine ⟨?_, ?_, ?_⟩
  · have hnot : ¬ (w.mgr.array (rows + 1)).isSome := fun hsome => by
      have := (h.row_some _).mp hsome
      omega
    simpa using hnot
  · rw [mem_range'_1, eRowNum]
    omega
  · intro j hj hj'
    have := (h.row_some j).mpr ⟨hj, by omega⟩
    simpa [Option.isSome_iff_ne_none] using this

theorem refill_eq (hfree : w.mgr.freeList = 0) :
    ∃ row : ℕ → SessionEntry σ,
      (∀ i, i < eColPerRow → row i = ⟨0, if i + 1 = eColPerRow then 0
        else (eColPerRow * (rows + 1) + i + 1) % 2 ^ 16, none⟩) ∧
      w.mgr.refill = { w.mgr with
        freeCount := w.mgr.freeCount + eColPerRow
        array := update w.mgr.array (rows + 1) (some row)
        freeList := eColPerRow * (rows + 1) % 2 ^ 16 } := by
  obtain ⟨hfl, hrow⟩ := SessionManager.fillRow_spec (rows + 1) eColPerRow
    (fun _ => (SessionEntry.zero : SessionEntry σ)) w.mgr.freeList
  refine ⟨(SessionManager.fillRow (rows + 1) eColPerRow
    (fun _ => SessionEntry.zero, w.mgr.freeList)).1, fun i hi => ?_, ?_⟩
  · rw [hrow i, if_pos hi, hfree]
    rfl
  · rw [SessionManager.refill, if_pos hfree, h.findAvail_eq]
    simp only
    rw [hfl, if_neg (by decide)]

theorem refill (hfree : w.mgr.freeList = 0) (hrows : rows < 63) :
    ({ w with mgr := w.mgr.refill } : World σ).Inv (rows + 1)
      (List.range' (eColPerRow * (rows + 1)) eColPerRow) := by
  obtain ⟨row, hrow, heq⟩ := h.refill_eq hfree
  obtain rfl : free = [] := by
    have := h.chain
    rw [hfree] at this
    exact this.eq_nil
  set m' := w.mgr.refill with hm'
  -- entries of the new row, and of all others
  have hnew : ∀ i, i < eColPerRow → m'.entry (eColPerRow * (rows + 1) + i) =
      ⟨0, if i + 1 = eColPerRow then 0 else eColPerRow * (rows + 1) + i + 1, none⟩ := by
    intro i hi
    have hdiv : (eColPerRow * (rows + 1) + i) / eColPerRow = rows + 1 := by
      simp only [eColPerRow] at hi ⊢
      omega
    have hmod : (eColPerRow * (rows + 1) + i) % eColPerRow = i := by
      simp only [eColPerRow] at hi ⊢
      omega
    have hsmall : (eColPerRow * (rows + 1) + i + 1) % 2 ^ 16 = eColPerRow * (rows + 1) + i + 1 ∨
        i + 1 = eColPerRow := by
      simp only [eColPerRow] at hi ⊢
      omega
    rw [SessionManager.entry, heq]
    simp only [hdiv, update_self, hmod, hrow i hi]
    rcases hsmall with hs | hs
    · rw [hs]
    · rw [if_pos hs, if_pos hs]
  have hold : ∀ k, k / eColPerRow ≠ rows + 1 → m'.entry k = w.mgr.entry k := by
    intro k hk
    rw [SessionManager.entry, heq]
    simp only [update_of_ne hk]
    rfl
  have hkey : ∀ k ∈ w.pending.map Prod.fst ++ w.live.map Prod.fst, k / eColPerRow ≠ rows + 1 := by
    intro k hk hdiv
    have := (h.key_row (mem_append_right _ hk)).1
    rw [h.row_some, hdiv] at this
    omega
  constructor
  · omega
  · intro i
    change (m'.array i).isSome ↔ _
    rw [heq]
    by_cases hi : i = rows + 1
    · subst hi
      simp
    · simp only [update_of_ne hi, h.row_some]
      omega
  · have hfl : m'.freeList = eColPerRow * (rows + 1) := by
      rw [heq]
      simp only [eColPerRow]
      omega
    have hchain : FreeChain (fun k => (m'.entry k).next) _
        (List.range' (eColPerRow * (rows + 1)) eColPerRow) :=
      FreeChain.range' (by simp [eColPerRow]) fun i hi => by rw [hnew i hi]
    rw [if_neg (by decide)] at hchain
    change FreeChain _ m'.freeList _
    rw [hfl]
    exact hchain
  · change m'.freeCount = _
    rw [heq, length_range']
    simp [h.freeCount]
  · change m'.count = _
    rw [heq]
    exact h.count
  · have hkeys := h.keys
    rw [nil_append] at hkeys
    have hsplit : List.range' eColPerRow (eColPerRow * (rows + 1)) =
        List.range' eColPerRow (eColPerRow * rows) ++
          List.range' (eColPerRow * (rows + 1)) eColPerRow := by
      rw [show eColPerRow * (rows + 1) = eColPerRow + eColPerRow * rows by ring]
      rw [List.range'_append_1, Nat.add_comm]
    rw [hsplit]
    exact (perm_append_comm).trans (hkeys.append_right _)
  · intro k q hq
    change (m'.entry k).seq = q
    rw [hold k (hkey k (mem_append_left _ (mem_map_of_mem hq)))]
    exact h.pending_seq k q hq
  · intro k s
    change (m'.entry k).session = some s ↔ _
    by_cases hk : k / eColPerRow = rows + 1
    · have hk' : k = eColPerRow * (rows + 1) + k % eColPerRow := by
        rw [← hk]
        exact (Nat.div_add_mod k eColPerRow).symm
      rw [hk', hnew _ (Nat.mod_lt _ (by decide)), ← hk']
      constructor
      · intro hs
        cases hs
      · intro hs
        exact absurd hk (hkey k (mem_append_right _ (mem_map_of_mem hs)))
    · rw [hold k hk]
      exact h.session k s

theorem pop (hne : w.mgr.freeList ≠ 0) :
    ∃ free', free = w.mgr.freeList :: free' ∧
      World.Inv ⟨{ w.mgr with
          freeCount := w.mgr.freeCount - 1
          freeList := (w.mgr.entry w.mgr.freeList).next },
        (w.mgr.freeList, (w.mgr.entry w.mgr.freeList).seq) :: w.pending, w.live⟩ rows free' := by
  obtain ⟨free', rfl, hchain⟩ := h.chain.eq_cons hne
  refine ⟨free', rfl, h.rows_lt, h.row_some, hchain, ?_, h.count, ?_, ?_, h.session⟩
  · have := h.freeCount
    rw [length_cons] at this
    change w.mgr.freeCount - 1 = _
    omega
  · refine List.Perm.trans ?_ h.keys
    exact perm_middle
  · intro k q hq
    rcases mem_cons.mp hq with heq | hq
    · cases heq
      rfl
    · exact h.pending_seq k q hq

/-- **Allocation**: a key is handed out that no live session holds. -/
theorem allocKey (hfits : w.Fits .allocKey) :
    ∃ m key seq rows' free', w.mgr.allocKey = .ok (m, key, seq) ∧ key > 0 ∧
      (m.array (key / eColPerRow)).isSome ∧ (∀ s, (key, s) ∉ w.live) ∧
      World.Inv ⟨m, (key, seq) :: w.pending, w.live⟩ rows' free' := by
  -- what the second half does once the free list is not empty
  have take : ∀ {w' : World σ} {rows' : ℕ} {free' : List ℕ}, w'.Inv rows' free' →
      w'.mgr = w.mgr.refill → w'.pending = w.pending → w'.live = w.live →
      w'.mgr.freeList ≠ 0 →
      ∃ m key seq rows' free', w.mgr.allocKey = .ok (m, key, seq) ∧ key > 0 ∧
        (m.array (key / eColPerRow)).isSome ∧ (∀ s, (key, s) ∉ w.live) ∧
        World.Inv ⟨m, (key, seq) :: w.pending, w.live⟩ rows' free' := by
    intro w' rows' free' h' hm hp hl hne
    obtain ⟨free'', rfl, hpop⟩ := h'.pop hne
    have hrow := (h'.key_row (mem_append_left _ (mem_cons_self ..))).1
    rw [hp, hl] at hpop
    refine ⟨{ w'.mgr with
        freeCount := w'.mgr.freeCount - 1
        freeList := (w'.mgr.entry w'.mgr.freeList).next },
      w'.mgr.freeList, _, rows', free'', ?_, by omega, hrow, fun s hs => ?_, hpop⟩
    · rw [SessionManager.allocKey, ← hm, if_pos (by omega), SessionManager.entryAt_eq hrow]
      rfl
    · have hnodup := h'.nodup
      rw [cons_append, nodup_cons] at hnodup
      refine hnodup.1 (mem_append_right _ (mem_append_right _ ?_))
      rw [hl]
      exact mem_map_of_mem hs
  by_cases hfree : w.mgr.freeList = 0
  · have hrows : rows < 63 := by
      obtain ⟨i, hi, hi', hnone⟩ := hfits hfree
      by_contra hfull
      have := (h.row_some i).mpr ⟨hi, by omega⟩
      rw [hnone] at this
      cases this
    have hrefill := h.refill hfree hrows
    refine take hrefill rfl rfl rfl ?_
    intro h0
    have hnil := hrefill.chain
    rw [h0] at hnil
    have := congrArg List.length hnil.eq_nil
    rw [length_range'] at this
    cases this
  · have hsame : w.mgr.refill = w.mgr := by rw [SessionManager.refill, if_neg hfree]
    exact take h hsame.symm rfl rfl hfree

end

theorem allocKey_none (h : w.Inv 63 free) (hfree : w.mgr.freeList = 0) :
    w.mgr.allocKey = .ok (w.mgr.refill, 0, 0) := by
  obtain ⟨row, -, hrefill⟩ := h.refill_eq hfree
  have hzero : w.mgr.refill.freeList = 0 := by
    rw [hrefill]
    rfl
  rw [SessionManager.allocKey, if_neg (by omega)]
  rfl

/-- **Put** under a key that was handed out. -/
theorem put (h : w.Inv rows free) {key seq : ℕ} (hp : (key, seq) ∈ w.pending) (s : σ) :
    ∃ m, w.mgr.put key seq s = .ok m ∧
      World.Inv ⟨m, w.pending.filter (·.1 ≠ key), (key, s) :: w.live⟩ rows free := by
  have hmem : key ∈ w.pending.map Prod.fst := mem_map_of_mem hp
  obtain ⟨hrow, -, -⟩ := h.key_row (mem_append_right _ (mem_append_left _ hmem))
  have hnodup := h.nodup
  obtain ⟨-, hnodup', -⟩ := nodup_append.mp hnodup
  obtain ⟨hpend, hlive, hdisj⟩ := nodup_append.mp hnodup'
  have hnolive : ∀ s', (key, s') ∉ w.live := fun s' hs' =>
    hdisj key hmem key (mem_map_of_mem hs') rfl
  have hnone : (w.mgr.entry key).session = none := by
    rcases hsess : (w.mgr.entry key).session with _ | s'
    · rfl
    · exact absurd ((h.session key s').mp hsess) (hnolive s')
  have hseq := h.pending_seq key seq hp
  set e : SessionEntry σ := { w.mgr.entry key with session := some s } with he
  have hput : w.mgr.put key seq s =
      .ok { w.mgr.setEntry key e with count := w.mgr.count + 1 } := by
    simp only [SessionManager.put, SessionManager.entryAt_eq hrow, bind, Except.bind]
    rw [if_neg (by rw [hnone]; exact Bool.false_ne_true), if_neg (not_not.mpr hseq.symm)]
    rfl
  have hentry : ∀ k, SessionManager.entry
      { w.mgr.setEntry key e with count := w.mgr.count + 1 } k =
        if k = key then e else w.mgr.entry k := SessionManager.entry_setEntry hrow e
  refine ⟨_, hput, h.rows_lt, fun i => ?_, ?_, h.freeCount, ?_, ?_, ?_, ?_⟩
  · rw [← h.row_some i, ← SessionManager.isSome_setEntry (m := w.mgr) key e i]
  · refine h.chain.congr fun k _ => ?_
    rw [hentry]
    split_ifs with hk
    · rw [hk]
    · rfl
  · change w.mgr.count + 1 = _
    rw [h.count, length_cons]
    push_cast
    rfl
  · -- the key moves from the handed-out ones to the live ones
    refine List.Perm.trans (List.Perm.append_left _ ?_) h.keys
    have hperm := (perm_cons_filter hpend hp).map Prod.fst
    exact perm_middle.trans (hperm.symm.append_right _)
  · intro k q hq
    obtain ⟨hq, hk⟩ := mem_filter.mp hq
    rw [hentry, if_neg (by simpa using hk)]
    exact h.pending_seq k q hq
  · intro k s'
    rw [hentry, mem_cons]
    split_ifs with hk
    · subst hk
      constructor
      · rintro ⟨rfl⟩
        exact .inl rfl
      · rintro (heq | hs')
        · cases heq
          rfl
        · exact absurd hs' (hnolive s')
    · rw [h.session k s']
      constructor
      · exact .inr
      · rintro (heq | hs')
        · exact absurd (Prod.mk.inj heq).1 hk
        · exact hs'

/-- **Remove** of a live session. -/
theorem remove (h : w.Inv rows free) {key : ℕ} {s : σ} (hl : (key, s) ∈ w.live) :
    ∃ m, w.mgr.remove key (w.mgr.get key).2 = .ok (m, some s) ∧
      World.Inv ⟨m, w.pending, w.live.filter (·.1 ≠ key)⟩ rows (key :: free) := by
  have hmem : key ∈ w.live.map Prod.fst := mem_map_of_mem hl
  obtain ⟨hrow, hne, hlt⟩ := h.key_row (mem_append_right _ (mem_append_right _ hmem))
  have hnodup := h.nodup
  obtain ⟨-, hnodup', hfdisj⟩ := nodup_append.mp hnodup
  obtain ⟨-, hlive, hdisj⟩ := nodup_append.mp hnodup'
  have hnofree : key ∉ free := fun hf =>
    hfdisj key hf key (mem_append_right _ hmem) rfl
  have hnopend : ∀ q, (key, q) ∉ w.pending := fun q hq =>
    hdisj key (mem_map_of_mem hq) key hmem rfl
  have hsess : (w.mgr.entry key).session = some s := (h.session key s).mpr hl
  set e : SessionEntry σ := ⟨((w.mgr.entry key).seq + 1) % 2 ^ 16, w.mgr.freeList, none⟩ with he
  set m' : SessionManager σ := { w.mgr.setEntry key e with
    freeList := key
    freeCount := w.mgr.freeCount + 1
    count := w.mgr.count - 1 } with hm'
  have hremove : w.mgr.remove key (w.mgr.get key).2 = .ok (m', some s) := by
    obtain ⟨row, hrow'⟩ := Option.isSome_iff_exists.mp hrow
    have hentry : w.mgr.entry key = row (key % eColPerRow) := by
      rw [SessionManager.entry, hrow']
    rw [SessionManager.get_eq, SessionManager.remove, hrow', hentry]
    simp only [ne_eq, not_true_eq_false, if_false]
    rw [Nat.mod_eq_of_lt hlt, ← hentry, hsess, hm', he, hentry]
  have hentry : ∀ k, m'.entry k = if k = key then e else w.mgr.entry k :=
    SessionManager.entry_setEntry hrow e
  refine ⟨m', hremove, h.rows_lt, fun i => ?_, ?_, ?_, ?_, ?_, ?_, ?_⟩
  · rw [← h.row_some i, ← SessionManager.isSome_setEntry (m := w.mgr) key e i]
  · refine .cons hne ?_
    rw [hentry, if_pos rfl]
    refine h.chain.congr fun k hk => ?_
    have hkk : k ≠ key := by
      rintro rfl
      exact hnofree hk
    rw [hentry, if_neg hkk]
  · change w.mgr.freeCount + 1 = _
    rw [h.freeCount, length_cons]
    push_cast
    rfl
  · change w.mgr.count - 1 = _
    have hlen := (perm_cons_filter hlive hl).length_eq
    rw [length_cons] at hlen
    rw [h.count, hlen]
    push_cast
    omega
  · -- the key moves from the live ones to the free ones
    refine List.Perm.trans ?_ h.keys
    have hperm := (perm_cons_filter hlive hl).map Prod.fst
    rw [cons_append]
    refine perm_middle.symm.trans (List.Perm.append_left _ ?_)
    exact perm_middle.symm.trans (hperm.symm.append_left _)
  · intro k q hq
    rw [hentry, if_neg]
    · exact h.pending_seq k q hq
    · rintro rfl
      exact hnopend q hq
  · intro k s'
    rw [hentry, mem_filter]
    split_ifs with hk
    · subst hk
      simp
    · rw [h.session k s']
      simp [hk]

/-- **Step lemma**: an allowed call that fits does not go wrong and keeps the invariant. -/
theorem step (h : w.Inv rows free) {c : Call σ} (hc : w.Allowed c) (hfits : w.Fits c) :
    ∃ w' rows' free', w.step c = .ok w' ∧ w'.Inv rows' free' := by
  cases c with
  | allocKey =>
    obtain ⟨m, key, seq, rows', free', halloc, hpos, -, -, hinv⟩ := h.allocKey hfits
    refine ⟨_, rows', free', ?_, hinv⟩
    simp only [World.step, halloc, bind, Except.bind]
    rw [if_neg (by omega)]
    rfl
  | put key seq s =>
    obtain ⟨m, hput, hinv⟩ := h.put hc s
    refine ⟨_, rows, free, ?_, hinv⟩
    simp only [World.step, hput, bind, Except.bind]
    rfl
  | get key => exact ⟨w, rows, free, rfl, h⟩
  | remove key =>
    obtain ⟨s, hs⟩ := hc
    obtain ⟨m, hremove, hinv⟩ := h.remove hs
    refine ⟨_, rows, key :: free, ?_, hinv⟩
    simp only [World.step, hremove, bind, Except.bind]
    rfl

end World.Inv

/-! ## Every run that fits -/

section runs

variable {σ : Type}

/-- **Run lemma**: the invariant holds in every world that a run reaches. -/
theorem World.Reach.inv {w : World σ} (h : World.Reach World.Fits w) :
    ∃ rows free, w.Inv rows free := by
  induction h with
  | init => exact ⟨0, [], .init⟩
  | step _ hc hfits hstep ih =>
    obtain ⟨rows, free, hinv⟩ := ih
    obtain ⟨w'', rows', free', hstep', hinv'⟩ := hinv.step hc hfits
    obtain rfl := Except.ok.inj (hstep.symm.trans hstep')
    exact ⟨rows', free', hinv'⟩

theorem World.Reach.mono {ok ok' : World σ → Call σ → Prop} (hok : ∀ w c, ok w c → ok' w c)
    {w : World σ} (h : World.Reach ok w) : World.Reach ok' w := by
  induction h with
  | init => exact .init
  | step _ hc hfits hstep ih => exact .step ih hc (hok _ _ hfits) hstep

theorem World.Reach.alloc {ok : World σ → Call σ → Prop} {w : World σ} (h : World.Reach ok w)
    (hok : ok w .allocKey) {m : SessionManager σ} {key seq : ℕ}
    (halloc : w.mgr.allocKey = .ok (m, key, seq)) :
    World.Reach ok
      { w with mgr := m, pending := if key = 0 then w.pending else (key, seq) :: w.pending } := by
  refine .step (c := .allocKey) h trivial hok ?_
  simp only [World.step, halloc, bind, Except.bind]
  rfl

theorem World.Reach.put {ok : World σ → Call σ → Prop} {w : World σ} {key seq : ℕ} {s : σ}
    {m : SessionManager σ} (h : World.Reach ok w) (hmem : (key, seq) ∈ w.pending)
    (hok : ok w (.put key seq s))
    (hput : w.mgr.put key seq s = .ok m) :
    World.Reach ok ⟨m, w.pending.filter (·.1 ≠ key), (key, s) :: w.live⟩ := by
  refine .step (c := .put key seq s) h hmem hok ?_
  simp only [World.step, hput, bind, Except.bind]
  rfl

theorem reach_pending {n : ℕ} (hn : n ≤ 63 * eColPerRow) :
    ∃ (w : World σ) (rows : ℕ) (free : List ℕ), World.Reach World.Fits w ∧ w.Inv rows free ∧
      w.pending.length = n ∧ w.live = [] := by
  induction n with
  | zero => exact ⟨.init, 0, [], .init, .init, rfl, rfl⟩
  | succ n ih =>
    obtain ⟨w, rows, free, hreach, hinv, hlen, hlive⟩ := ih (by omega)
    have hkeys := hinv.keys.length_eq
    simp only [length_append, length_map, hlive, hlen, length_nil,
      length_range'] at hkeys
    have hfits : w.Fits .allocKey := by
      intro hfree
      have hchain := hinv.chain
      rw [hfree] at hchain
      rw [hchain.eq_nil, length_nil] at hkeys
      simp only [eColPerRow] at hn hkeys
      refine ⟨rows + 1, by omega, by omega, ?_⟩
      have hnone : ¬ (w.mgr.array (rows + 1)).isSome := fun hsome => by
        have := (hinv.row_some _).mp hsome
        omega
      simpa using hnone
    obtain ⟨m, key, seq, rows', free', halloc, hpos, -, -, hinv'⟩ := hinv.allocKey hfits
    have hnext := hreach.alloc hfits halloc
    rw [if_neg (by omega)] at hnext
    exact ⟨_, rows', free', hnext, hinv', by rw [length_cons, hlen], hlive⟩

/-- In every run in which `allocKey` never needs the 64th row, no call goes wrong, `allocKey`
returns a key that no live session holds, the two counters count, and `get` returns the sessions
that were put and not removed. -/
theorem sessionManager_runs {w : World σ} (h : World.Reach World.Fits w) :
    (∀ c, w.Allowed c → w.Fits c → ∃ w', w.step c = .ok w') ∧
    (w.Fits .allocKey → ∃ m key seq, w.mgr.allocKey = .ok (m, key, seq) ∧
      (key = 0 ∨ key > 0 ∧ (m.array (key / eColPerRow)).isSome ∧ ∀ s, (key, s) ∉ w.live)) ∧
    (∃ free, FreeChain (fun k => (w.mgr.entry k).next) w.mgr.freeList free ∧
      w.mgr.freeCount = free.length) ∧
    w.mgr.count = w.live.length ∧ (w.live.map Prod.fst).Nodup ∧
    ∀ key, w.Allowed (.get key) → ∀ s, (w.mgr.get key).1 = some s ↔ (key, s) ∈ w.live := by
  obtain ⟨rows, free, hinv⟩ := h.inv
  refine ⟨fun c hc hfits => ?_, fun hfits => ?_, ⟨free, hinv.chain, hinv.freeCount⟩, hinv.count,
    ?_, fun key _ s => ?_⟩
  · obtain ⟨w', -, -, hstep, -⟩ := hinv.step hc hfits
    exact ⟨w', hstep⟩
  · obtain ⟨m, key, seq, -, -, halloc, hpos, hrow, hlive, -⟩ := hinv.allocKey hfits
    exact ⟨m, key, seq, halloc, .inr ⟨hpos, hrow, hlive⟩⟩
  · obtain ⟨-, hnodup, -⟩ := List.nodup_append.mp hinv.nodup
    exact (List.nodup_append.mp hnodup).2.1
  · rw [SessionManager.get_eq]
    exact hinv.session key s

/-- Two sessions put under two keys are found there. -/
theorem sessionManager_runs_two : ∃ (w : World ℕ) (key key' : ℕ),
    World.Reach World.Fits w ∧ w.live = [(key', 8), (key, 7)] ∧ w.mgr.count = 2 ∧
      (w.mgr.get key).1 = some 7 ∧ (w.mgr.get key').1 = some 8 := by
  obtain ⟨w, rows, free, hreach, hinv, hlen, hlive⟩ := reach_pending (σ := ℕ) (n := 2) (by decide)
  obtain ⟨⟨key, seq⟩, ⟨key', seq'⟩, hpend⟩ := List.length_eq_two.mp hlen
  have hmem : (key, seq) ∈ w.pending := hpend ▸ List.mem_cons_self
  obtain ⟨m, hput, hinv₁⟩ := hinv.put hmem 7
  have hreach₁ := hreach.put hmem trivial hput
  have hne : key' ≠ key := by
    have hnodup := (List.nodup_append.mp (List.nodup_append.mp hinv.nodup).2.1).1
    rw [hpend] at hnodup
    simpa [eq_comm] using hnodup
  have hmem' : (key', seq') ∈ w.pending.filter (·.1 ≠ key) := by
    rw [hpend]
    simp [hne]
  obtain ⟨m', hput', hinv₂⟩ := hinv₁.put hmem' 8
  have hreach₂ := hreach₁.put hmem' trivial hput'
  rw [hlive] at hreach₂ hinv₂
  obtain ⟨-, -, -, hcount, -, hget⟩ := sessionManager_runs hreach₂
  have hrow : ∀ k, k = key ∨ k = key' → k / eColPerRow < eRowNum := by
    intro k hk
    have hlive : k ∈ [key', key] := List.mem_pair.mpr hk.symm
    have hrange := (hinv₂.key_row (List.mem_append_right _ (List.mem_append_right _ hlive))).2.2
    simp only [eColPerRow, eRowNum]
    omega
  exact ⟨_, key, key', hreach₂, rfl, hcount, (hget key (hrow key (.inl rfl)) 7).mpr (by simp),
    (hget key' (hrow key' (.inr rfl)) 8).mpr (by simp)⟩

/-- The 64513th key: row 64 is added, its keys are cut to 16 bits, the free list stays empty and
`mFreeCount` says 1024. -/
theorem sessionManager_miscounts : ∃ w : World Unit, World.Reach (fun _ _ => True) w ∧
    ¬ ∃ free, FreeChain (fun k => (w.mgr.entry k).next) w.mgr.freeList free ∧
      w.mgr.freeCount = free.length := by
  obtain ⟨w, rows, free, hreach, hinv, hlen, hlive⟩ := reach_pending (σ := Unit) (le_refl _)
  -- all 63 rows are handed out
  have hkeys := hinv.keys.length_eq
  simp only [List.length_append, List.length_map, hlive, hlen, List.length_nil,
    List.length_range', eColPerRow] at hkeys
  have hlt := hinv.rows_lt
  obtain rfl : rows = 63 := by omega
  obtain rfl : free = [] := List.length_eq_zero_iff.mp (by omega)
  have hfree : w.mgr.freeList = 0 := by
    by_contra hne
    obtain ⟨l, hl, -⟩ := hinv.chain.eq_cons hne
    cases hl
  obtain ⟨row, -, hrefill⟩ := hinv.refill_eq hfree
  have hzero : w.mgr.refill.freeList = 0 := by
    rw [hrefill]
    rfl
  have halloc := hinv.allocKey_none hfree
  have hmono : World.Reach (fun _ _ => True) w := hreach.mono fun _ _ _ => trivial
  refine ⟨_, hmono.alloc trivial halloc, ?_⟩
  rintro ⟨l, hchain, hcount⟩
  change FreeChain _ w.mgr.refill.freeList l at hchain
  rw [hzero] at hchain
  change w.mgr.refill.freeCount = _ at hcount
  rw [hchain.eq_nil, hrefill] at hcount
  simp [hinv.freeCount, eColPerRow] at hcount

end runs

end Spserver
