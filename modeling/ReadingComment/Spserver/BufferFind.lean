import ReadingComment.Spserver.DotTerm

/-!
# The search in a buffer (`SP_Buffer::find` in `spserver/spbuffer.cpp`)

A place in the buffer is its distance from the first buffered byte. What is read in front of the
buffered bytes or behind them is a fault.
-/

namespace Spserver.Buffer

open Lib List
open Lib (Bytes)

inductive Fault where
  /-- a read outside of the buffered bytes -/
  | outside
  /-- it does not return -/
  | endless
  deriving DecidableEq

/-- `memchr(search, c, n)` -/
def memchr (bytes : Bytes) (search : ℕ) (c : UInt8) (n : ℕ) : Except Fault (Option ℕ) :=
  if search + n ≤ bytes.length then
    .ok ((((bytes.drop search).take n).findIdx? (· == c)).map (search + ·))
  else .error .outside

/-- `memcmp(p, what, len) == 0` -/
def memcmpEq (bytes : Bytes) (p : ℕ) (what : Bytes) : Except Fault Bool :=
  if p + what.length ≤ bytes.length then .ok ((bytes.drop p).take what.length == what)
  else .error .outside

/-- The loop of `find`; `c` is `*what`. -/
def loop (bytes what : Bytes) (c : UInt8) : ℕ → ℕ → Except Fault (Option ℕ)
  | 0, _ => .error .endless
  | fuel + 1, search => do
    let remain := bytes.length - search
    if remain < what.length then return none
    let some p ← memchr bytes search c (remain - what.length + 1) | return none
    if ← memcmpEq bytes p what then return some p
    loop bytes what c fuel (p + 1)

/-- `find(key, len)`, in at most `fuel` rounds -/
def find (fuel : ℕ) (bytes key : Bytes) : Except Fault (Option ℕ) :=
  match key with
  | [] => .error .outside
  | c :: _ => loop bytes key c fuel 0

/-- Of the places from `search` on where the key is, `r` is the first one. -/
structure FirstFrom (bytes key : Bytes) (search : ℕ) (r : Option ℕ) : Prop where
  occurs : ∀ p ∈ r, search ≤ p ∧ key <+: bytes.drop p
  first : ∀ q, search ≤ q → key <+: bytes.drop q → ∃ p ∈ r, p ≤ q

variable {bytes key ks : Bytes} {c : UInt8} {search n : ℕ}

theorem FirstFrom.later {r : Option ℕ} {p : ℕ} (h : FirstFrom bytes key p r) (hp : search ≤ p)
    (hnot : ∀ q, search ≤ q → q < p → ¬ key <+: bytes.drop q) : FirstFrom bytes key search r := by
  refine ⟨fun q hq => ?_, fun q hq hkey => ?_⟩
  · obtain ⟨hle, hkey⟩ := h.occurs q hq
    exact ⟨hp.trans hle, hkey⟩
  · exact h.first q (Nat.le_of_not_lt fun hlt => hnot q hq hlt hkey) hkey

/-- A place without room for the key or with another byte is no place of the key. -/
theorem not_prefix {q : ℕ} (h : ∀ hq : q < bytes.length, bytes[q] ≠ c) :
    ¬ c :: ks <+: bytes.drop q := by
  rintro ⟨rest, heq⟩
  by_cases hq : q < bytes.length
  · rw [drop_eq_getElem_cons hq] at heq
    exact h hq (List.cons.inj heq).1.symm
  · rw [drop_of_length_le (Nat.le_of_not_lt hq)] at heq
    cases heq

theorem length_le_of_prefix {q : ℕ} (h : key <+: bytes.drop q) : key.length ≤ bytes.length - q :=
  length_drop (l := bytes) ▸ h.length_le

/-- `memchr` goes to the first place that may be one of the key. -/
theorem memchr_spec (c : UInt8) (ks : Bytes) (h : search + n ≤ bytes.length) :
    ∃ r, memchr bytes search c n = .ok r ∧ (∀ p ∈ r, search ≤ p ∧ p < search + n) ∧
      ∀ q, search ≤ q → q < search + n → (∀ p ∈ r, q < p) → ¬ c :: ks <+: bytes.drop q := by
  refine ⟨_, by rw [memchr, if_pos h], ?_⟩
  have hget : ∀ i, i < n → ∀ hq : search + i < bytes.length,
      ((bytes.drop search).take n)[i]? = some bytes[search + i] := by
    intro i hi hq
    rw [getElem?_take_of_lt hi, getElem?_drop, getElem?_eq_getElem hq]
  cases hidx : ((bytes.drop search).take n).findIdx? (· == c) with
  | none =>
    refine ⟨nofun, fun q hle hlt _ => not_prefix fun hq => ?_⟩
    obtain ⟨i, rfl⟩ := Nat.exists_eq_add_of_le hle
    have hmem := mem_of_getElem? (hget i (Nat.lt_of_add_lt_add_left hlt) hq)
    simpa using findIdx?_eq_none_iff.mp hidx _ hmem
  | some k =>
    obtain ⟨hk, -, hbefore⟩ := findIdx?_eq_some_iff_getElem.mp hidx
    have hkn : k < n := Nat.lt_of_lt_of_le hk (length_take_le _ _)
    refine ⟨by simp [hkn], fun q hle hlt hq => not_prefix fun hq' => ?_⟩
    obtain ⟨i, rfl⟩ := Nat.exists_eq_add_of_le hle
    have hik : i < k := Nat.lt_of_add_lt_add_left (hq _ rfl)
    obtain ⟨_, heq⟩ := List.getElem?_eq_some_iff.mp (hget i (hik.trans hkn) hq')
    have hne := hbefore i hik
    rw [heq] at hne
    simpa using hne

theorem memcmpEq_spec {p : ℕ} (h : p + key.length ≤ bytes.length) :
    memcmpEq bytes p key = .ok (decide (key <+: bytes.drop p)) := by
  rw [memcmpEq, if_pos h]
  refine congrArg _ (Bool.eq_iff_iff.mpr ?_)
  rw [beq_iff_eq, decide_eq_true_iff, prefix_iff_eq_take, eq_comm]

/-- **A round** finds the key, ends the search, or goes on behind a place where the key is not. -/
theorem loop_spec (fuel search : ℕ) (hsearch : search ≤ bytes.length)
    (hfuel : bytes.length - search < fuel) :
    ∃ r, loop bytes (c :: ks) c fuel search = .ok r ∧ FirstFrom bytes (c :: ks) search r := by
  induction fuel generalizing search with
  | zero => exact absurd hfuel (Nat.not_lt_zero _)
  | succ fuel ih =>
    rw [loop]
    by_cases hshort : bytes.length - search < (c :: ks).length
    · rw [if_pos hshort]
      refine ⟨none, rfl, nofun, fun q hq hkey => ?_⟩
      have := length_le_of_prefix hkey
      omega
    · have hroom : search + (c :: ks).length ≤ bytes.length := by omega
      have hplaces : search + (bytes.length - search - (c :: ks).length + 1) ≤ bytes.length := by
        rw [length_cons] at hroom ⊢
        omega
      obtain ⟨r, hmemchr, hrange, hnot⟩ := memchr_spec c ks hplaces
      rw [if_neg hshort, hmemchr]
      cases r with
      | none =>
        refine ⟨none, rfl, nofun, fun q hq hkey => ?_⟩
        have := length_le_of_prefix hkey
        rw [length_cons] at this hnot
        exact absurd hkey (hnot q hq (by omega) nofun)
      | some p =>
        obtain ⟨hle, hlt⟩ := hrange p rfl
        have hbefore : ∀ q, search ≤ q → q < p → ¬ c :: ks <+: bytes.drop q := fun q hq hqp =>
          hnot q hq (hqp.trans hlt) fun _ h => Option.some.inj h ▸ hqp
        have hcmp : memcmpEq bytes p (c :: ks) = .ok (decide (c :: ks <+: bytes.drop p)) :=
          memcmpEq_spec (by omega)
        simp only [bind, Except.bind, hcmp]
        by_cases hkey : c :: ks <+: bytes.drop p
        · refine ⟨some p, by rw [decide_eq_true hkey]; rfl,
            fun q hq => Option.some.inj hq ▸ ⟨hle, hkey⟩, ?_⟩
          exact fun q hq hkey => ⟨p, rfl, Nat.le_of_not_lt fun hqp => hbefore q hq hqp hkey⟩
        · rw [length_cons] at hroom hlt
          obtain ⟨r, hloop, hr⟩ := ih (p + 1) (by omega) (by omega)
          refine ⟨r, by simpa [hkey] using hloop, hr.later (Nat.le_succ_of_le hle) ?_⟩
          intro q hq hqp
          rcases Nat.lt_succ_iff_lt_or_eq.mp hqp with hqp | rfl
          · exact hbefore q hq hqp
          · exact hkey

theorem infix_iff_exists_drop : key <:+: bytes ↔ ∃ q, key <+: bytes.drop q := by
  constructor
  · rintro ⟨a, b, rfl⟩
    exact ⟨a.length, b, by simp⟩
  · rintro ⟨q, hkey⟩
    exact hkey.isInfix.trans (drop_suffix q bytes).isInfix

/-- **The search** returns the first place of the key, or none if the key is nowhere, and reads
buffered bytes only. -/
theorem find_first (hkey : key ≠ []) {fuel : ℕ} (hfuel : bytes.length < fuel) :
    ∃ r, find fuel bytes key = .ok r ∧ (r = none ↔ ¬ key <:+: bytes) ∧
      ∀ p, r = some p ↔ key <+: bytes.drop p ∧ ∀ q < p, ¬ key <+: bytes.drop q := by
  obtain ⟨c, ks, rfl⟩ := List.exists_cons_of_ne_nil hkey
  obtain ⟨r, hloop, hoccurs, hfirst⟩ := loop_spec fuel 0 (Nat.zero_le _) hfuel
  refine ⟨r, hloop, ?_, fun p => ⟨?_, ?_⟩⟩
  · rw [infix_iff_exists_drop, not_exists]
    constructor
    · rintro rfl q hkey
      obtain ⟨p, hp, -⟩ := hfirst q (Nat.zero_le q) hkey
      cases hp
    · intro hnowhere
      cases r with
      | none => rfl
      | some p => exact absurd (hoccurs p rfl).2 (hnowhere p)
  · rintro rfl
    refine ⟨(hoccurs p rfl).2, fun q hq hkey => ?_⟩
    obtain ⟨p', hp', hle⟩ := hfirst q (Nat.zero_le q) hkey
    exact absurd (Option.some.inj hp' ▸ hle) (Nat.not_le_of_lt hq)
  · rintro ⟨hkey, hbefore⟩
    obtain ⟨p', rfl, hle⟩ := hfirst p (Nat.zero_le p) hkey
    have hge := Nat.le_of_not_lt fun hlt => hbefore p' hlt (hoccurs p' rfl).2
    rw [Nat.le_antisymm hle hge]

/-- The key is found at the end, behind a start of it. -/
theorem find_first_end : ∃ r, find 4 [1, 1, 2] [1, 2] = .ok r ∧
    (r = none ↔ ¬ ([1, 2] : Bytes) <:+: [1, 1, 2]) ∧
    ∀ p, r = some p ↔ ([1, 2] : Bytes) <+: [1, 1, 2].drop p ∧
      ∀ q < p, ¬ ([1, 2] : Bytes) <+: [1, 1, 2].drop q :=
  find_first (by decide) (by decide)

/-- The decoders look for their terminators with this search. -/
theorem find_eq (hkey : key ≠ []) {fuel : ℕ} (hfuel : bytes.length < fuel) :
    find fuel bytes key = .ok (Lib.find key bytes) := by
  obtain ⟨c, ks, rfl⟩ := exists_cons_of_ne_nil hkey
  obtain ⟨r, hloop, hoccurs, hfirst⟩ := loop_spec fuel 0 (Nat.zero_le _) hfuel
  refine hloop.trans (congrArg _ ?_)
  cases hfind : Lib.find (c :: ks) bytes with
  | none =>
    cases r with
    | none => rfl
    | some p =>
      exact absurd (infix_iff_exists_drop.mpr ⟨p, (hoccurs p rfl).2⟩) (find_eq_none hfind)
  | some i =>
    obtain ⟨hsplit, hi, hleast⟩ := find_eq_some hfind
    have hkeyi : c :: ks <+: bytes.drop i := by
      rw [hsplit, append_assoc, drop_left' (length_take_of_le hi)]
      exact prefix_append _ _
    obtain ⟨p, rfl, hle⟩ := hfirst i (Nat.zero_le i) hkeyi
    obtain ⟨rest, hrest⟩ := (hoccurs p rfl).2
    have hge := hleast (bytes.take p) rest (by
      rw [append_assoc, hrest, take_append_drop])
    rw [Nat.le_antisymm hle (hge.trans (length_take_le _ _))]

end Spserver.Buffer
