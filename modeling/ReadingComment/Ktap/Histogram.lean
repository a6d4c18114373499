import Mathlib.Algebra.Order.BigOperators.Group.List
import Mathlib.Algebra.Order.Group.Nat
import ReadingComment.Ktap.TabTraversal

/-!
# Printing a histogram (`runtime/kp_tab.c`)

`tab_histdump` copies the pairs of a table into a buffer of `asize + hnum` records, sums their
values in an `int`, sorts the records and prints a bar for each of the first ones, whose length is
computed in `size_t` arithmetic. A copy past the buffer, a division by zero and a bar that does not
fit are faults here.

The loops collect the entries of a traversal (`collect_eq`, `histEntries`); what is left is the
arithmetic of one bar (`barLength_iff`).
-/

namespace Ktap

open List

/-- What can go wrong in `tab_histdump`. -/
inductive HistFault where
  /-- a slot that does not exist is read -/
  | slot (f : Fault)
  /-- a record is copied past the end of `sort_mem` -/
  | buffer
  /-- the sum is zero -/
  | divZero
  /-- a bar is not inside `dist_str` -/
  | bar
  deriving DecidableEq, Repr

/-- A `ktap_node2_t`; only numbers are copied into it. -/
structure HistRec (σ : Type) where
  key : Val σ
  num : Number

/-- `hist_record_cmp(i, j)`. -/
def histRecordCmp {σ : Type} (i j : HistRec σ) : ℤ :=
  if i.num = j.num then 0 else if i.num.toInt < j.num.toInt then 1 else -1

/-- The `sort` of the kernel, which is not stable: what it is relied on for. -/
structure KernelSort (σ : Type) where
  sort : List (HistRec σ) → List (HistRec σ)
  perm : ∀ recs, (sort recs).Perm recs
  sorted : ∀ recs, (sort recs).Pairwise fun i j => histRecordCmp i j ≤ 0

/-- What is printed for a record. -/
inductive HistLine (σ : Type) where
  /-- a key of more than 32 characters: `"%s\n%d\n\n"` below it -/
  | long (key : σ) (distStr : List Char) (num : Number)
  /-- `"%31s |%s%-7d\n"` -/
  | str (key : σ) (distStr : List Char) (num : Number)
  /-- `"%31d |%s%-7d\n"` -/
  | num (key : Number) (distStr : List Char) (num : Number)
  /-- `"%31s |%s%-7d\n"` with the symbol of the address -/
  | kip (key : BitVec 64) (distStr : List Char) (num : Number)
  /-- a key of another kind -/
  | nothing
  /-- `"%31s |\n"` with `"..."` -/
  | dots
  deriving DecidableEq, Repr

section model

variable {σ : Type}

/-- The state of the copying loops: the records of `sort_mem`, and `sum`. -/
structure SortMem (σ : Type) where
  recs : List (HistRec σ)
  sum : BitVec 32

/-- How many records `sort_mem` has room for. -/
def sortMemSlots (t : Tab σ) : ℕ := (BitVec.ofNat 32 t.asize + t.hnum).toNat

/-- A copying loop over `n` slots from slot `i` on; `none` after the message
`"print_hist only can print number\n"`. -/
def collect (slots : ℕ) (slot : ℕ → Except Fault (Val σ × Val σ)) :
    ℕ → ℕ → SortMem σ → Except HistFault (Option (SortMem σ))
  | 0, _, m => .ok (some m)
  | n + 1, i, m =>
    match slot i with
    | .error f => .error (.slot f)
    | .ok (key, val) =>
      match val with
      | .nil => collect slots slot n (i + 1) m
      | .num v =>
        if m.recs.length < slots then
          collect slots slot n (i + 1) ⟨m.recs ++ [⟨key, v⟩], (m.sum.signExtend 64 + v).setWidth 32⟩
        else .error .buffer
      | _ => .ok none

def arraySlot (t : Tab σ) (i : ℕ) : Except Fault (Val σ × Val σ) := do
  return (.num (BitVec.ofNat 64 i), ← t.load (.array i))

def nodeSlot (t : Tab σ) (i : ℕ) : Except Fault (Val σ × Val σ) := do
  let n ← t.nodeAt i
  return (n.key, n.val)

/-- `sizeof(dist_str) - 1`. -/
def distLen : ℕ := 38

/-- `ratio = (num * (sizeof(dist_str) - 1)) / sum`, and the `memset` of so many characters. -/
def barLength (sum : BitVec 32) (num : Number) : Except HistFault ℕ :=
  if sum = 0 then .error .divZero
  else
    let ratio : BitVec 32 := (num * BitVec.ofNat 64 distLen / sum.signExtend 64).setWidth 32
    if 0 ≤ ratio.toInt ∧ ratio.toInt ≤ distLen then .ok ratio.toNat else .error .bar

/-- `dist_str`. -/
def distStr (ratio : ℕ) : List Char :=
  List.replicate ratio '@' ++ List.replicate (distLen - ratio) ' '

/-- The line of a record; `len` is the length of a string. -/
def histLine (len : σ → ℕ) (r : HistRec σ) (ratio : ℕ) : HistLine σ :=
  match r.key with
  | .str s => if len s > 32 then .long s (distStr ratio) r.num else .str s (distStr ratio) r.num
  | .num n => .num n (distStr ratio) r.num
  | .obj .kip gc => .kip gc (distStr ratio) r.num
  | _ => .nothing

/-- The printing loop, and the `shownums` that is left. -/
def printLoop (len : σ → ℕ) (sum : BitVec 32) :
    List (HistRec σ) → BitVec 32 → Except HistFault (List (HistLine σ) × BitVec 32)
  | [], shownums => .ok ([], shownums)
  | r :: rs, shownums =>
    if shownums - 1 = 0 then .ok ([], 0)
    else do
      let ratio ← barLength sum r.num
      let (lines, shownums) ← printLoop len sum rs (shownums - 1)
      return (histLine len r ratio :: lines, shownums)

/-- `tab_histdump(ks, t, shownums)`: the lines, `none` when a value is not a number. The
allocation is taken to succeed. -/
def tabHistdump (srt : KernelSort σ) (len : σ → ℕ) (t : Tab σ) (shownums : BitVec 32) :
    Except HistFault (Option (List (HistLine σ))) := do
  match ← collect (sortMemSlots t) (arraySlot t) t.asize 0 ⟨[], 0⟩ with
  | none => return none
  | some m =>
    match ← collect (sortMemSlots t) (nodeSlot t) (t.hmask.toNat + 1) 0 m with
    | none => return none
    | some m =>
      let (lines, shownums) ← printLoop len m.sum (srt.sort m.recs) shownums
      return some (if shownums = 0 ∧ 0 < m.recs.length then lines ++ [.dots] else lines)

end model

/-! ## One bar -/

/-- The bar of the value `num` is inside `dist_str` when the values sum up to `sum`. -/
def BarFits (sum : BitVec 32) (num : Number) : Prop :=
  sum.toInt < 0 ∨
    (0 < sum.toInt ∧ (num.toNat * distLen) % 2 ^ 64 % (sum.toNat * 2 ^ 32) <
      (distLen + 1) * sum.toNat)

theorem toNat_product (num : Number) :
    (num * BitVec.ofNat 64 distLen).toNat = (num.toNat * distLen) % 2 ^ 64 := by
  rw [BitVec.toNat_mul, BitVec.toNat_ofNat]
  rfl

variable {sum : BitVec 32}

theorem barLength_eq (hsum : sum ≠ 0) (num : Number) :
    barLength sum num =
      if (num.toNat * distLen) % 2 ^ 64 / (sum.signExtend 64).toNat % 2 ^ 32 ≤ distLen then
        .ok ((num.toNat * distLen) % 2 ^ 64 / (sum.signExtend 64).toNat % 2 ^ 32)
      else .error .bar := by
  have hratio : ((num * BitVec.ofNat 64 distLen / sum.signExtend 64).setWidth 32).toNat =
      (num.toNat * distLen) % 2 ^ 64 / (sum.signExtend 64).toNat % 2 ^ 32 := by
    rw [BitVec.toNat_setWidth, BitVec.toNat_udiv, toNat_product]
  have hrange (ratio : BitVec 32) :
      (0 ≤ ratio.toInt ∧ ratio.toInt ≤ distLen) ↔ ratio.toNat ≤ distLen := by
    rw [BitVec.toInt_eq_toNat_cond, distLen]
    have := ratio.isLt
    split <;> omega
  simp only [barLength, if_neg hsum, hrange, hratio]

theorem barLength_neg (h : sum.toInt < 0) (num : Number) :
    ∃ ratio, barLength sum num = .ok ratio ∧ ratio ≤ 1 := by
  have hsum : sum ≠ 0 := by
    rintro rfl
    exact absurd h (by decide)
  have hbig : 2 ^ 31 ≤ sum.toNat := by
    rw [BitVec.toInt_eq_toNat_cond] at h
    split at h <;> omega
  have hmsb : sum.msb = true := by
    rw [BitVec.msb_eq_decide, decide_eq_true_eq]
    exact hbig
  have hdivisor : (sum.signExtend 64).toNat = sum.toNat + (2 ^ 64 - 2 ^ 32) := by
    rw [BitVec.toNat_signExtend, if_pos hmsb, BitVec.toNat_setWidth_of_le (by decide)]
  have hproduct : (num.toNat * distLen) % 2 ^ 64 < 2 ^ 64 := Nat.mod_lt _ (by decide)
  have hlarge : 2 ^ 64 ≤ 2 * (sum.signExtend 64).toNat := by
    rw [hdivisor]
    omega
  rw [barLength_eq hsum]
  generalize (num.toNat * distLen) % 2 ^ 64 = product at hproduct
  generalize (sum.signExtend 64).toNat = divisor at hlarge
  have hquot : product / divisor < 2 := by
    have hpos : 0 < divisor := by omega
    exact (Nat.div_lt_iff_lt_mul hpos).mpr (lt_of_lt_of_le hproduct hlarge)
  generalize product / divisor = quot at hquot
  have hmod : quot % 2 ^ 32 = quot := Nat.mod_eq_of_lt (by omega)
  have hle : quot ≤ distLen := le_trans (Nat.le_of_lt_succ hquot) (by decide)
  rw [hmod, if_pos hle]
  exact ⟨quot, rfl, Nat.le_of_lt_succ hquot⟩

theorem barLength_pos (h : 0 < sum.toInt) (num : Number) :
    (∃ ratio, barLength sum num = .ok ratio) ↔
      (num.toNat * distLen) % 2 ^ 64 % (sum.toNat * 2 ^ 32) < (distLen + 1) * sum.toNat := by
  have hsum : sum ≠ 0 := by
    rintro rfl
    exact absurd h (by decide)
  have hsmall : sum.toNat < 2 ^ 31 := by
    have := sum.isLt
    rw [BitVec.toInt_eq_toNat_cond] at h
    split at h <;> omega
  have hpos : 0 < sum.toNat := by
    rw [BitVec.toInt_eq_toNat_cond] at h
    split at h <;> omega
  have hmsb : sum.msb = false := by
    rw [BitVec.msb_eq_decide, decide_eq_false_iff_not]
    omega
  have hdivisor : (sum.signExtend 64).toNat = sum.toNat := by
    rw [BitVec.signExtend_eq_setWidth_of_msb_false hmsb, BitVec.toNat_setWidth_of_le (by decide)]
  have hquot : (num.toNat * distLen) % 2 ^ 64 / sum.toNat % 2 ^ 32 ≤ distLen ↔
      (num.toNat * distLen) % 2 ^ 64 % (sum.toNat * 2 ^ 32) < (distLen + 1) * sum.toNat := by
    rw [← Nat.mod_mul_right_div_self, ← Nat.lt_succ_iff, Nat.div_lt_iff_lt_mul hpos]
  rw [← hquot, barLength_eq hsum, hdivisor]
  split
  · rename_i hle
    exact ⟨fun _ => hle, fun _ => ⟨_, rfl⟩⟩
  · rename_i hnot
    exact ⟨nofun, fun hle => absurd hle hnot⟩

theorem barLength_iff (sum : BitVec 32) (num : Number) :
    (∃ ratio, barLength sum num = .ok ratio) ↔ BarFits sum num := by
  rcases lt_trichotomy sum.toInt 0 with hneg | hzero | hpos
  · obtain ⟨ratio, hratio, -⟩ := barLength_neg hneg num
    exact ⟨fun _ => .inl hneg, fun _ => ⟨ratio, hratio⟩⟩
  · have hsum : sum = 0 := BitVec.eq_of_toInt_eq hzero
    subst hsum
    constructor
    · rintro ⟨ratio, hratio⟩
      cases hratio
    · rintro (h | ⟨h, -⟩)
      · exact absurd h (by decide)
      · exact absurd h (by decide)
  · rw [barLength_pos hpos]
    exact ⟨fun h => .inr ⟨hpos, h⟩, fun h => (h.resolve_left (by omega)).2⟩

/-! ## The records -/

section records

variable {σ : Type} {t : Tab σ}

def histRec (e : Val σ × Val σ) : Option (HistRec σ) :=
  match e.2 with
  | .num v => some ⟨e.1, v⟩
  | _ => none

def Tab.numbers (t : Tab σ) : List Number := (t.entries.filterMap histRec).map HistRec.num

def Tab.AllNumbers (t : Tab σ) : Prop := ∀ e ∈ t.entries, ∃ v, e.2 = .num v

/-- What numbers sum up to in an `int`. -/
def addNums (sum : BitVec 32) (nums : List Number) : BitVec 32 :=
  nums.foldl (fun s v => s + v.setWidth 32) sum

theorem addNums_append (sum : BitVec 32) (nums nums' : List Number) :
    addNums sum (nums ++ nums') = addNums (addNums sum nums) nums' := foldl_append ..

theorem add_number (sum : BitVec 32) (v : Number) :
    (sum.signExtend 64 + v).setWidth 32 = sum + v.setWidth 32 := by
  have hsum : (sum.signExtend 64).setWidth 32 = sum := by
    refine BitVec.eq_of_getLsbD_eq fun i hi => ?_
    rw [BitVec.getLsbD_setWidth, BitVec.getLsbD_signExtend]
    simp [hi, lt_trans hi (show 32 < 64 by decide)]
  rw [BitVec.setWidth_add _ _ (by decide), hsum]

/-- **A copying loop** copies the records of its slots, as long as there is room. -/
theorem collect_eq {slots : ℕ} {slot : ℕ → Except Fault (Val σ × Val σ)} {e : ℕ → Val σ × Val σ}
    {n i : ℕ} (hslot : ∀ j, i ≤ j → j < i + n → slot j = .ok (e j))
    (hnum : ∀ j, i ≤ j → j < i + n → (e j).2 = .nil ∨ ∃ v, (e j).2 = .num v) {m : SortMem σ}
    (hm : m.recs.length ≤ slots) :
    collect slots slot n i m =
      if m.recs.length + ((List.range' i n).filterMap fun j => histRec (e j)).length ≤ slots then
        .ok (some ⟨m.recs ++ (List.range' i n).filterMap fun j => histRec (e j),
          addNums m.sum (((List.range' i n).filterMap fun j => histRec (e j)).map HistRec.num)⟩)
      else .error .buffer := by
  induction n generalizing i m with
  | zero =>
    rw [List.range'_zero, filterMap_nil, length_nil, Nat.add_zero, if_pos hm, append_nil]
    rfl
  | succ n ih =>
    have hrest : ∀ {m : SortMem σ}, m.recs.length ≤ slots → _ := fun {m} hm =>
      @ih (i + 1) (fun j hj hlt => hslot j (by omega) (by omega))
        (fun j hj hlt => hnum j (by omega) (by omega)) m hm
    obtain ⟨key, val, he⟩ : ∃ key val, e i = (key, val) := ⟨_, _, rfl⟩
    have hsloti : slot i = .ok (key, val) := by rw [hslot i (Nat.le_refl i) (by omega), he]
    rw [collect, hsloti, List.range'_succ, filterMap_cons, he]
    rcases hnum i (Nat.le_refl i) (by omega) with hnil | ⟨v, hv⟩
    · obtain rfl : val = .nil := by simpa [he] using hnil
      exact hrest hm
    · obtain rfl : val = .num v := by simpa [he] using hv
      simp only [histRec, length_cons, map_cons]
      by_cases hroom : m.recs.length < slots
      · rw [if_pos hroom, hrest (by rw [length_append]; exact hroom), add_number]
        simp only [length_append, length_singleton, append_assoc, singleton_append,
          Nat.add_assoc, Nat.add_comm 1]
        rfl
      · rw [if_neg hroom, if_neg (by omega)]

theorem arraySlot_eq {p : ℕ} (hp : p < t.asize) : arraySlot t p = .ok (t.entryAt p) := by
  have hget : t.array[p]? = some t.array[p] := getElem?_eq_getElem hp
  rw [arraySlot, Tab.load, hget, Tab.entryAt, if_pos hp, hget]
  rfl

theorem nodeSlot_eq {i : ℕ} (hi : i < t.node.length) :
    nodeSlot t i = .ok (t.entryAt (t.asize + i)) := by
  have hnot : ¬ t.asize + i < t.asize := by omega
  rw [nodeSlot, t.nodeAt_eq hi, Tab.entryAt, if_neg hnot, Nat.add_sub_cancel_left]
  rfl

theorem Tab.AllNumbers.entryAt (h : t.AllNumbers) {p : ℕ} (hp : p < t.positions) :
    (t.entryAt p).2 = .nil ∨ ∃ v, (t.entryAt p).2 = .num v := by
  by_cases hnil : (t.entryAt p).2 = .nil
  · exact .inl hnil
  · exact .inr (h _ (mem_entries.mpr ⟨p, hp, shown_eq_some.mpr ⟨rfl, hnil⟩⟩))

theorem filterMap_entries : t.entries.filterMap histRec =
    ((List.range' 0 t.asize).filterMap fun p => histRec (t.entryAt p)) ++
      (List.range' 0 t.node.length).filterMap fun i => histRec (t.entryAt (t.asize + i)) := by
  have hshown : ∀ p, (t.shown p).bind histRec = histRec (t.entryAt p) := by
    intro p
    rw [Tab.shown]
    cases hval : (t.entryAt p).2 with
    | nil => simp [histRec, hval, Val.isNil]
    | _ => rfl
  have hsplit := t.range_positions (Nat.zero_le _)
  rw [Nat.zero_sub, Nat.sub_zero, Nat.sub_zero, Nat.sub_zero] at hsplit
  rw [Tab.entries, filterMap_filterMap]
  simp only [hshown]
  rw [hsplit, filterMap_append, filterMap_map]
  rfl

theorem Tab.AllNumbers.length (h : t.AllNumbers) :
    (t.entries.filterMap histRec).length = t.entries.length := by
  rw [filterMap_length_eq_length]
  intro e he
  obtain ⟨v, hv⟩ := h e he
  rw [histRec, hv]
  rfl

theorem tabHistdump_eq {srt : KernelSort σ} {len : σ → ℕ}
    (hnode : t.node.length = t.hmask.toNat + 1)
    (h : t.AllNumbers) (shownums : BitVec 32) :
    tabHistdump srt len t shownums =
      if t.entries.length ≤ sortMemSlots t then do
        let (lines, left) ← printLoop len (addNums 0 t.numbers)
          (srt.sort (t.entries.filterMap histRec)) shownums
        return some (if left = 0 ∧ 0 < (t.entries.filterMap histRec).length then lines ++ [.dots]
          else lines)
      else .error .buffer := by
  have hsplit := @filterMap_entries σ t
  have hlen := h.length
  have hnumbers : t.numbers = (t.entries.filterMap histRec).map HistRec.num := rfl
  rw [hsplit] at hlen hnumbers
  rw [hsplit]
  have harray := @collect_eq σ (sortMemSlots t) (arraySlot t) t.entryAt t.asize 0
    (fun j _ hj => arraySlot_eq (by omega)) (fun j _ hj => h.entryAt (by rw [Tab.positions]; omega))
    ⟨[], 0⟩ (Nat.zero_le _)
  have hnodes := fun (m : SortMem σ) (hm : m.recs.length ≤ sortMemSlots t) =>
    @collect_eq σ (sortMemSlots t) (nodeSlot t) (fun i => t.entryAt (t.asize + i)) t.node.length 0
      (fun j _ hj => nodeSlot_eq (by omega))
      (fun j _ hj => h.entryAt (by rw [Tab.positions]; omega)) m hm
  rw [hnode] at hnodes hlen hnumbers ⊢
  generalize ((List.range' 0 t.asize).filterMap fun p => histRec (t.entryAt p)) = rs at *
  generalize ((List.range' 0 (t.hmask.toNat + 1)).filterMap fun i =>
    histRec (t.entryAt (t.asize + i))) = rs' at *
  rw [length_append] at hlen
  rw [length_nil, Nat.zero_add, nil_append] at harray
  rw [tabHistdump, harray, ← hlen]
  by_cases hfirst : rs.length ≤ sortMemSlots t
  · rw [if_pos hfirst]
    have hsecond := hnodes ⟨rs, addNums 0 (rs.map HistRec.num)⟩ hfirst
    simp only [bind, Except.bind, hsecond]
    by_cases hall : rs.length + rs'.length ≤ sortMemSlots t
    · rw [if_pos hall, if_pos hall, hnumbers, map_append, addNums_append]
    · rw [if_neg hall, if_neg hall]
  · rw [if_neg hfirst, if_neg (by omega)]
    rfl

/-! ## The bars -/

theorem printLoop_iff (len : σ → ℕ) (sum : BitVec 32) (rs : List (HistRec σ))
    (shownums : BitVec 32) :
    (∃ r, printLoop len sum rs shownums = .ok r) ↔
      ∀ r ∈ rs.take (shownums - 1).toNat, BarFits sum r.num := by
  induction rs generalizing shownums with
  | nil => exact ⟨fun _ r hr => by simp at hr, fun _ => ⟨_, rfl⟩⟩
  | cons r rs ih =>
    rw [printLoop]
    by_cases hzero : shownums - 1 = 0
    · rw [if_pos hzero, hzero]
      exact ⟨fun _ r hr => by simp at hr, fun _ => ⟨_, rfl⟩⟩
    · have hpos : (shownums - 1).toNat ≠ 0 := fun h => hzero (BitVec.eq_of_toNat_eq h)
      have hpred : (shownums - 1 - 1).toNat + 1 = (shownums - 1).toNat := by
        generalize shownums - 1 = n at hpos
        have hlt := n.isLt
        have hone : (1 : BitVec 32).toNat = 1 := rfl
        rw [BitVec.toNat_sub, hone]
        omega
      rw [if_neg hzero, ← hpred, take_succ_cons, forall_mem_cons, ← ih (shownums - 1),
        ← barLength_iff]
      constructor
      · rintro ⟨res, hres⟩
        cases hbar : barLength sum r.num with
        | error err =>
          rw [hbar] at hres
          cases hres
        | ok ratio =>
          rw [hbar] at hres
          cases hrest : printLoop len sum rs (shownums - 1) with
          | error err =>
            simp only [bind, Except.bind, hrest] at hres
            cases hres
          | ok res' => exact ⟨⟨ratio, rfl⟩, ⟨res', rfl⟩⟩
      · rintro ⟨⟨ratio, hratio⟩, ⟨res', hrest⟩⟩
        rw [hratio]
        simp only [bind, Except.bind, hrest]
        exact ⟨_, rfl⟩

def NumGe (a b : Number) : Prop := b.toInt ≤ a.toInt

instance : DecidableRel NumGe := fun a b => inferInstanceAs (Decidable (b.toInt ≤ a.toInt))

instance : Std.Total NumGe := ⟨fun a b => le_total b.toInt a.toInt⟩

instance : IsTrans Number NumGe := ⟨fun _ _ _ hab hbc => le_trans hbc hab⟩

theorem histRecordCmp_le {i j : HistRec σ} : histRecordCmp i j ≤ 0 ↔ NumGe i.num j.num := by
  rw [histRecordCmp, NumGe]
  split
  · rename_i heq
    rw [heq]
    simp
  · rename_i hne
    have hne' : i.num.toInt ≠ j.num.toInt := fun h => hne (BitVec.eq_of_toInt_eq h)
    split <;> omega

theorem KernelSort.nums (srt : KernelSort σ) (recs : List (HistRec σ)) :
    (srt.sort recs).map HistRec.num = (recs.map HistRec.num).insertionSort NumGe := by
  have hanti : ∀ a b : Number, NumGe a b → NumGe b a → a = b := fun a b hab hba =>
    BitVec.eq_of_toInt_eq (le_antisymm hba hab)
  refine List.Perm.eq_of_pairwise (fun a b _ _ => hanti a b) ?_ (pairwise_insertionSort NumGe _) ?_
  · rw [pairwise_map]
    exact (srt.sorted recs).imp histRecordCmp_le.mp
  · exact ((srt.perm recs).map _).trans (perm_insertionSort NumGe _).symm

/-- The values that are printed: the largest ones, as many as are asked for. -/
def Tab.printed (t : Tab σ) (shownums : BitVec 32) : List Number :=
  (t.numbers.insertionSort NumGe).take (shownums - 1).toNat

theorem mem_of_printed {shownums : BitVec 32} {num : Number} (h : num ∈ t.printed shownums) :
    num ∈ t.numbers :=
  (perm_insertionSort NumGe _).mem_iff.mp (mem_of_mem_take h)

/-- When a histogram is printed: the table has a hash part, `hnum` has not wrapped below the number
of pairs, and every bar that is printed is inside `dist_str`. -/
structure HistFine (t : Tab σ) (shownums : BitVec 32) : Prop where
  hash : t.hmask ≠ 0
  room : t.entries.length ≤ sortMemSlots t
  bars : ∀ num ∈ t.printed shownums, BarFits (addNums 0 t.numbers) num

/-- **A histogram** of a table of numbers. -/
theorem tabHistdump_iff [DecidableEq σ] [StrObj σ] (srt : KernelSort σ) (len : σ → ℕ) (h : t.Sound)
    (hnum : t.AllNumbers) (shownums : BitVec 32) :
    (∃ lines, tabHistdump srt len t shownums = .ok lines) ↔ HistFine t shownums := by
  rcases h with hinv | hbare
  · have hbars : (∃ r, printLoop len (addNums 0 t.numbers)
        (srt.sort (t.entries.filterMap histRec)) shownums = .ok r) ↔
          ∀ num ∈ t.printed shownums, BarFits (addNums 0 t.numbers) num := by
      rw [printLoop_iff, Tab.printed, Tab.numbers, ← srt.nums, ← map_take, forall_mem_map]
    have hfine : HistFine t shownums ↔ t.entries.length ≤ sortMemSlots t ∧
        ∀ num ∈ t.printed shownums, BarFits (addNums 0 t.numbers) num :=
      ⟨fun h => ⟨h.room, h.bars⟩, fun h => ⟨hinv.mask_ne, h.1, h.2⟩⟩
    rw [hfine, ← hbars, tabHistdump_eq hinv.size hnum]
    by_cases hroom : t.entries.length ≤ sortMemSlots t
    · rw [if_pos hroom]
      constructor
      · rintro ⟨lines, hlines⟩
        cases hprint : printLoop len (addNums 0 t.numbers) (srt.sort (t.entries.filterMap histRec))
            shownums with
        | error err =>
          simp only [bind, Except.bind, hprint] at hlines
          cases hlines
        | ok r => exact ⟨hroom, r, rfl⟩
      · rintro ⟨-, r, hr⟩
        simp only [bind, Except.bind, hr]
        exact ⟨_, rfl⟩
    · rw [if_neg hroom]
      exact ⟨fun hex => absurd hex.choose_spec nofun, fun hboth => absurd hboth.1 hroom⟩
  · constructor
    · rintro ⟨lines, hlines⟩
      have harray := @collect_eq σ (sortMemSlots t) (arraySlot t) t.entryAt t.asize 0
        (fun j _ hj => arraySlot_eq (by omega))
        (fun j _ hj => hnum.entryAt (by rw [Tab.positions]; omega)) ⟨[], 0⟩ (Nat.zero_le _)
      have hmask : t.hmask.toNat = 0 := congrArg BitVec.toNat hbare.mask
      have hnode : ∀ m : SortMem σ, collect (sortMemSlots t) (nodeSlot t) (0 + 1) 0 m =
          .error (.slot .badAccess) := by
        intro m
        rw [collect, nodeSlot, hbare.nodeAt]
        rfl
      rw [tabHistdump, harray, hmask] at hlines
      split at hlines
      · simp only [bind, Except.bind, hnode] at hlines
        cases hlines
      · cases hlines
    · exact fun hfine => absurd hbare.mask hfine.hash

end records

/-! ## Room in the buffer -/

section room

variable {σ : Type} [DecidableEq σ] [StrObj σ] {t : Tab σ}

/-- A table with a hash part after operations, and how many of them there were since it was made
or cleared. -/
inductive ReachedWithin : ℕ → Tab σ → Prop
  | new {garbage : ℕ → Node σ} {garbageA : ℕ → Val σ} {asize hbits : ℕ} {t : Tab σ} : 1 ≤ hbits →
      kpTabNew garbage garbageA asize hbits = .ok t → ReachedWithin 0 t
  | op {n : ℕ} {t t' : Tab σ} {ks : KState σ} {op : Op σ} {e : Option TabErr} : ReachedWithin n t →
      op ≠ .clear → op.run ks t = .ok (t', e) → ReachedWithin (n + 1) t'
  | clear {n : ℕ} {t : Tab σ} : ReachedWithin n t → ReachedWithin 0 (kpTabClear t)

theorem ReachedWithin.reached {n : ℕ} (h : ReachedWithin n t) : Reached t := by
  induction h with
  | new hb hnew => exact .new hb hnew
  | op _ _ hrun ih => exact .op ih hrun
  | clear _ ih => exact @Reached.op σ _ _ _ _ ⟨none, fun _ _ => none⟩ .clear none ih rfl

omit [StrObj σ] in
theorem keyCount_eq_zero (h : ∀ i, t.keyAt i = .nil) : t.keyCount = 0 := by
  rw [Tab.keyCount, Finset.card_eq_zero, Finset.filter_eq_empty_iff]
  exact fun i _ hne => hne (h i)

theorem ReachedWithin.keyCount_le {n : ℕ} (h : ReachedWithin n t) (hn : n < 2 ^ 32) :
    t.keyCount ≤ t.hnum.toNat ∧ t.hnum.toNat ≤ n := by
  induction h with
  | @new garbage garbageA asize hbits t hb hnew =>
    obtain ⟨-, hkeys, -⟩ := kpTabNew_spec hb hnew
    have hhnum : t.hnum = 0 := by
      rw [kpTabNew_eq] at hnew
      split at hnew
      · cases hnew
        rfl
      · cases hnew
    rw [keyCount_eq_zero hkeys, hhnum]
    exact ⟨Nat.zero_le _, Nat.le_refl 0⟩
  | op hreached hclear hrun ih =>
    obtain ⟨hkeys, hle⟩ := ih (by omega)
    rcases (Op.run_keeps hreached.reached.inv.1 hrun).counts hclear with ⟨hhnum, hcount⟩ |
      ⟨hhnum, hcount⟩
    · rw [hhnum, hcount]
      exact ⟨hkeys, by omega⟩
    · rw [hhnum, BitVec.toNat_add]
      have hone : (1 : BitVec 32).toNat = 1 := rfl
      omega
  | @clear n t hreached =>
    have hmask := hreached.reached.inv.1.mask_pos
    have hhnum : (kpTabClear t).hnum = 0 := by
      have hpos : (clearapart t).hmask.toNat > 0 := hmask
      rw [kpTabClear, if_pos hpos]
      rfl
    rw [keyCount_eq_zero (kpTabClear_keys hmask), hhnum]
    exact ⟨Nat.zero_le _, Nat.le_refl 0⟩

theorem length_entries_le (h : t.Inv) : t.entries.length ≤ t.asize + t.keyCount := by
  have harray : t.array.countP (fun v => !v.isNil) ≤ t.asize := countP_le_length
  have hnodes :
      (List.range' 0 t.node.length).countP (fun i => !(t.valAt i).isNil) ≤ t.keyCount := by
    rw [← range_eq_range', countP_eq_length_filter]
    change (List.filter (fun i => !(t.valAt i).isNil) (List.range t.node.length)).length ≤
      (List.filter (fun i => decide (t.keyAt i ≠ .nil)) (List.range t.node.length)).length
    refine (monotone_filter_right _ fun i hval => ?_).length_le
    rw [Bool.not_eq_true', Val.isNil_eq_false_iff] at hval
    rw [decide_eq_true_eq]
    exact fun hnil => hval (h.scatter.virgin i hnil).1
  rw [length_entries]
  exact Nat.add_le_add harray hnodes

/-- **The buffer** is long enough unless the table came through billions of operations. -/
theorem ReachedWithin.room {n : ℕ} (h : ReachedWithin n t) (hn : t.asize + n < 2 ^ 32) :
    t.entries.length ≤ sortMemSlots t := by
  obtain ⟨hkeys, hle⟩ := h.keyCount_le (by omega)
  have hentries := length_entries_le h.reached.inv.1
  have hslots : sortMemSlots t = t.asize + t.hnum.toNat := by
    rw [sortMemSlots, BitVec.toNat_add, BitVec.toNat_ofNat,
      Nat.mod_eq_of_lt (show t.asize < 2 ^ 32 by omega)]
    exact Nat.mod_eq_of_lt (by omega)
  omega

/-! ## Every histogram -/

omit [DecidableEq σ] [StrObj σ] in
theorem toNat_addNums (sum : BitVec 32) (nums : List Number) :
    (addNums sum nums).toNat = (sum.toNat + (nums.map BitVec.toNat).sum) % 2 ^ 32 := by
  induction nums generalizing sum with
  | nil =>
    rw [map_nil, sum_nil, Nat.add_zero, Nat.mod_eq_of_lt sum.isLt]
    rfl
  | cons v nums ih =>
    have hstep : addNums sum (v :: nums) = addNums (sum + v.setWidth 32) nums := rfl
    rw [hstep, ih, map_cons, sum_cons, BitVec.toNat_add, BitVec.toNat_setWidth]
    omega

theorem barFits_of_sum {nums : List Number} (hpos : 0 < (nums.map BitVec.toNat).sum)
    (hsmall : (nums.map BitVec.toNat).sum < 2 ^ 31) {num : Number} (hmem : num ∈ nums) :
    BarFits (addNums 0 nums) num := by
  have hle : num.toNat ≤ (nums.map BitVec.toNat).sum :=
    single_le_sum (fun _ _ => Nat.zero_le _) _ (mem_map_of_mem hmem)
  have hsum : (addNums 0 nums).toNat = (nums.map BitVec.toNat).sum := by
    have hzero : (0 : BitVec 32).toNat = 0 := rfl
    rw [toNat_addNums, hzero, Nat.zero_add]
    exact Nat.mod_eq_of_lt (by omega)
  have hint : (addNums 0 nums).toInt = (nums.map BitVec.toNat).sum := by
    rw [BitVec.toInt_eq_toNat_cond, hsum, if_pos (by omega)]
  refine .inr ⟨by omega, ?_⟩
  rw [hsum, distLen]
  generalize (nums.map BitVec.toNat).sum = total at hpos hsmall hle
  have hproduct : num.toNat * 38 % 2 ^ 64 = num.toNat * 38 := Nat.mod_eq_of_lt (by omega)
  have hmod : num.toNat * 38 % (total * 2 ^ 32) = num.toNat * 38 := Nat.mod_eq_of_lt (by omega)
  rw [hproduct, hmod]
  omega

/-- **Histograms.** One of a table of numbers is printed without a fault if and only if
`HistFine` holds; and in a run with fewer than `2 ^ 32 - asize` operations since the table was made
or cleared, if and only if the bars that are printed fit. -/
theorem histogram_fine (srt : KernelSort σ) (len : σ → ℕ) :
    (∀ (t : Tab σ) (shownums : BitVec 32), t.Sound → t.AllNumbers →
        ((∃ lines, tabHistdump srt len t shownums = .ok lines) ↔ HistFine t shownums)) ∧
      ∀ (n : ℕ) (t : Tab σ) (shownums : BitVec 32), ReachedWithin n t → t.asize + n < 2 ^ 32 →
        t.AllNumbers → ((∃ lines, tabHistdump srt len t shownums = .ok lines) ↔
          ∀ num ∈ t.printed shownums, BarFits (addNums 0 t.numbers) num) := by
  refine ⟨fun t shownums h hnum => tabHistdump_iff srt len h hnum shownums,
    fun n t shownums h hn hnum => ?_⟩
  have hinv := h.reached.inv.1
  rw [tabHistdump_iff srt len (.inl hinv) hnum shownums]
  exact ⟨HistFine.bars, fun hbars => ⟨hinv.mask_ne, h.room hn, hbars⟩⟩

end room

def insertion (σ : Type) : KernelSort σ where
  sort recs := recs.insertionSort fun i j => NumGe i.num j.num
  perm recs := List.perm_insertionSort _ recs
  sorted recs := by
    have : Std.Total fun i j : HistRec σ => NumGe i.num j.num := ⟨fun i j => le_total _ _⟩
    have : IsTrans (HistRec σ) fun i j => NumGe i.num j.num :=
      ⟨fun _ _ _ hij hjk => le_trans hjk hij⟩
    exact (List.pairwise_insertionSort _ recs).imp histRecordCmp_le.mpr

/-- Two strings with the values 3 and 5. -/
theorem histogram_fine_two :
    letI : StrObj Bool := ⟨fun _ => 0⟩
    ∃ t : Tab Bool, runOps ⟨none, fun _ _ => none⟩ (blank Bool 0 1)
        [.setstr true (.num 3), .setstr false (.num 5)] = .ok (t, []) ∧
      HistFine t 20 ∧ ∃ lines, tabHistdump (insertion Bool) (fun _ => 4) t 20 = .ok lines := by
  let : StrObj Bool := ⟨fun _ => 0⟩
  let t₁ : Tab Bool := ⟨[], [⟨.num 3, .str true, none⟩, Node.empty], 2, 1, 1⟩
  let t : Tab Bool := ⟨[], [⟨.num 3, .str true, some 1⟩, ⟨.num 5, .str false, none⟩], 1, 1, 2⟩
  have hnew : kpTabNew (fun _ => ⟨.bool true, .num 7, some 0⟩) (fun _ => .num 9) 0 1 =
      .ok (blank Bool 0 1) := by decide
  have hrun₁ :
      (Op.setstr true (.num 3)).run ⟨none, fun _ _ => none⟩ (blank Bool 0 1) = .ok (t₁, none) := by
    decide
  have hrun₂ : (Op.setstr false (.num 5)).run ⟨none, fun _ _ => none⟩ t₁ = .ok (t, none) := by
    decide
  have hclear (s : Bool) (v : Val Bool) : (Op.setstr s v : Op Bool) ≠ .clear := by
    intro h
    cases h
  have hreached : ReachedWithin 2 t :=
    .op (.op (.new (Nat.le_refl 1) hnew) (hclear true _) hrun₁) (hclear false _) hrun₂
  have hnum : t.AllNumbers := by
    intro e he
    rcases List.mem_pair.mp he with rfl | rfl
    · exact ⟨3, rfl⟩
    · exact ⟨5, rfl⟩
  obtain ⟨hiff, hruns⟩ := histogram_fine (insertion Bool) fun _ => 4
  have hlines := (hruns 2 t 20 hreached (by decide) hnum).mpr fun num hmem =>
    barFits_of_sum (by decide) (by decide) (mem_of_printed hmem)
  exact ⟨t, by decide, (hiff t 20 (.inl hreached.reached.inv.1) hnum).mp hlines, hlines⟩

/-- Two values that sum up to zero. -/
theorem histogram_zero :
    letI : StrObj Bool := ⟨fun _ => 0⟩
    ¬ ∀ (t : Tab Bool) (shownums : BitVec 32), Reached t → t.AllNumbers →
      ∃ lines, tabHistdump (insertion Bool) (fun _ => 4) t shownums = .ok lines := by
  let : StrObj Bool := ⟨fun _ => 0⟩
  intro h
  let t : Tab Bool :=
    ⟨[], [⟨.num 1, .str true, some 1⟩, ⟨.num (-1), .str false, none⟩], 1, 1, 2⟩
  have hnew : kpTabNew (fun _ => ⟨.bool true, .num 7, some 0⟩) (fun _ => .num 9) 0 1 =
      .ok (blank Bool 0 1) := by decide
  have hruns : runOps ⟨none, fun _ _ => none⟩ (blank Bool 0 1)
      [.setstr true (.num 1), .setstr false (.num (-1))] = .ok (t, []) := by decide
  have hreached : Reached t := (Reached.new (Nat.le_refl 1) hnew).runOps hruns
  have hnum : t.AllNumbers := by
    intro e he
    rcases List.mem_cons.mp he with rfl | he
    · exact ⟨1, rfl⟩
    · obtain rfl : e = (.str false, .num (-1)) := List.mem_singleton.mp he
      exact ⟨-1, rfl⟩
  obtain ⟨lines, hlines⟩ := h t 20 hreached hnum
  have hzero : tabHistdump (insertion Bool) (fun _ => 4) t 20 = .error .divZero := by decide
  cases hzero.symm.trans hlines

end Ktap
