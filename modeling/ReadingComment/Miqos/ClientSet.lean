import Mathlib.Data.List.Nodup
import Mathlib.Order.BooleanAlgebra.Set

/-!
# The set of clients (`newset` in `miqosd_std_htb.lua`)

The values of the set are the sequence part of a table, and a hidden table has their positions. What
is not a key of a Lua table is `nil` and NaN. A call that raises an error leaves what it did.
-/

namespace Miqos.ClientSet

open Function List

/-- A value: `nil`, NaN, or one that can be a key. -/
inductive Value (κ : Type) where
  | nil
  | nan
  | key (k : κ)
  deriving DecidableEq

/-- The sequence part of `set`, and `reverse`. -/
structure NewSet (κ : Type) where
  set : List (Value κ)
  reverse : κ → Option ℕ

variable {κ : Type} [DecidableEq κ]

/-- `t[value]` -/
def lookup (t : κ → Option ℕ) : Value κ → Option ℕ
  | .key k => t k
  | _ => none

/-- `t[value] = i`, or an error. -/
def assign (t : κ → Option ℕ) (i : Option ℕ) : Value κ → Option (κ → Option ℕ)
  | .key k => some (Function.update t k i)
  | _ => none

/-- `a ~= b`; `eqMeta` is what a metamethod `__eq` says about two different objects. -/
def differ (eqMeta : κ → κ → Bool) : Value κ → Value κ → Bool
  | .key a, .key b => a ≠ b ∧ eqMeta a b = false
  | .nil, .nil => false
  | _, _ => true

/-- `table.insert(set, value)` -/
def append (set : List (Value κ)) (value : Value κ) : List (Value κ) :=
  if value = .nil then set else set ++ [value]

/-- `set[index] = value` -/
def put (set : List (Value κ)) (index : ℕ) (value : Value κ) : List (Value κ) :=
  if index ≤ set.length then set.set (index - 1) value
  else set ++ List.replicate (index - 1 - set.length) .nil ++ [value]

/-- `set:insert(value)`, and whether it raises no error. -/
def insert (s : NewSet κ) (value : Value κ) : NewSet κ × Bool :=
  if (lookup s.reverse value).isSome then (s, true)
  else
    let set := append s.set value
    match assign s.reverse (some set.length) value with
    | some reverse => (⟨set, reverse⟩, true)
    | none => ({ s with set := set }, false)

/-- `set:remove(value)` -/
def remove (eqMeta : κ → κ → Bool) (s : NewSet κ) (value : Value κ) : NewSet κ × Bool :=
  match lookup s.reverse value with
  | none => (s, true)
  | some index =>
    -- no error here: a value that is found is a key
    let reverse := (assign s.reverse none value).getD s.reverse
    let top := s.set.getLast?.getD .nil
    let set := s.set.dropLast
    if differ eqMeta top value then
      match assign reverse (some index) top with
      | some reverse => (⟨put set index top, reverse⟩, true)
      | none => (⟨set, reverse⟩, false)
    else (⟨set, reverse⟩, true)

inductive Call (κ : Type) where
  | insert (value : Value κ)
  | remove (value : Value κ)
  deriving DecidableEq

def call (eqMeta : κ → κ → Bool) (s : NewSet κ) : Call κ → NewSet κ
  | .insert value => (insert s value).1
  | .remove value => (remove eqMeta s value).1

def run (eqMeta : κ → κ → Bool) (calls : List (Call κ)) : NewSet κ :=
  calls.foldl (call eqMeta) ⟨[], fun _ => none⟩

/-- What the calls put into a set and do not take out again. -/
def note (members : Set κ) : Call κ → Set κ
  | .insert (.key k) => members ∪ {k}
  | .remove (.key k) => members \ {k}
  | _ => members

def members (calls : List (Call κ)) : Set κ := calls.foldl note ∅

/-- The sequence has each member once and nothing else, and the hidden table has the positions. -/
structure Holds (members : Set κ) (s : NewSet κ) : Prop where
  nodup : s.set.Nodup
  mem : ∀ value, value ∈ s.set ↔ ∃ k ∈ members, value = .key k
  reverse : ∀ k i, s.reverse k = some i ↔ ∃ j, i = j + 1 ∧ s.set[j]? = some (.key k)

variable {s : NewSet κ} {S : Set κ} {eqMeta : κ → κ → Bool}

/-- **The invariant** links the two tables position by position. -/
structure Linked (S : Set κ) (s : NewSet κ) : Prop where
  at_iff : ∀ j value, s.set[j]? = some value ↔ ∃ k, value = .key k ∧ s.reverse k = some (j + 1)
  pos : ∀ k, s.reverse k ≠ some 0
  mem : ∀ k, k ∈ S ↔ (s.reverse k).isSome

omit [DecidableEq κ] in
theorem Linked.holds (h : Linked S s) : Holds S s := by
  refine ⟨?_, fun value => ?_, fun k i => ?_⟩
  · rw [nodup_iff_getElem?_ne_getElem?]
    intro i j hij hj heq
    have hget := getElem?_eq_getElem hj
    obtain ⟨k, hk, hi⟩ := (h.at_iff i _).mp (heq.trans hget)
    obtain ⟨k', hk', hj'⟩ := (h.at_iff j _).mp hget
    obtain rfl := Value.key.inj (hk.symm.trans hk')
    have := Option.some.inj (hi.symm.trans hj')
    omega
  · rw [mem_iff_getElem?]
    constructor
    · rintro ⟨j, hj⟩
      obtain ⟨k, rfl, hk⟩ := (h.at_iff j value).mp hj
      exact ⟨k, (h.mem k).mpr (hk ▸ rfl), rfl⟩
    · rintro ⟨k, hk, rfl⟩
      obtain ⟨i, hi⟩ := Option.isSome_iff_exists.mp ((h.mem k).mp hk)
      cases i with
      | zero => exact absurd hi (h.pos k)
      | succ j => exact ⟨j, (h.at_iff j _).mpr ⟨k, rfl, hi⟩⟩
  · constructor
    · intro hi
      cases i with
      | zero => exact absurd hi (h.pos k)
      | succ j => exact ⟨j, rfl, (h.at_iff j _).mpr ⟨k, rfl, hi⟩⟩
    · rintro ⟨j, rfl, hj⟩
      obtain ⟨k', hk', hrev⟩ := (h.at_iff j _).mp hj
      rwa [Value.key.inj hk']

theorem insert_fresh {k : κ} (h : s.reverse k = none) : (insert s (.key k)).1 =
    ⟨s.set ++ [.key k], update s.reverse k (some (s.set.length + 1))⟩ := by
  simp [insert, lookup, h, append, assign]

theorem remove_top {k : κ} {rest : List (Value κ)} (hset : s.set = rest ++ [.key k])
    (h : (s.reverse k).isSome) :
    (remove eqMeta s (.key k)).1 = ⟨rest, update s.reverse k none⟩ := by
  obtain ⟨i, hi⟩ := Option.isSome_iff_exists.mp h
  simp [remove, lookup, hi, hset, assign, differ]

theorem remove_inner {k top : κ} {rest : List (Value κ)} {j : ℕ} (hset : s.set = rest ++ [.key top])
    (h : s.reverse k = some (j + 1)) (hj : j < rest.length) (hne : top ≠ k)
    (heq : eqMeta top k = false) :
    (remove eqMeta s (.key k)).1 = ⟨rest.set j (.key top),
      update (update s.reverse k none) top (some (j + 1))⟩ := by
  simp [remove, lookup, h, hset, assign, differ, hne, heq, put, Nat.succ_le_of_lt hj]

omit [DecidableEq κ] in
theorem Linked.lt_length (h : Linked S s) {k : κ} {j : ℕ} (hk : s.reverse k = some (j + 1)) :
    j < s.set.length :=
  (List.getElem?_eq_some_iff.mp ((h.at_iff j _).mpr ⟨k, rfl, hk⟩)).1

omit [DecidableEq κ] in
theorem Linked.inj (h : Linked S s) {k k' : κ} {i : ℕ} (hk : s.reverse k = some i)
    (hk' : s.reverse k' = some i) : k = k' := by
  cases i with
  | zero => exact absurd hk (h.pos k)
  | succ j =>
    have heq := ((h.at_iff j _).mpr ⟨k, rfl, hk⟩).symm.trans ((h.at_iff j _).mpr ⟨k', rfl, hk'⟩)
    exact Value.key.inj (Option.some.inj heq)

theorem Linked.insert_key (h : Linked S s) (k : κ) : Linked (S ∪ {k}) (insert s (.key k)).1 := by
  have hlt : ∀ k' j, s.reverse k' = some (j + 1) → j < s.set.length := fun _ _ => h.lt_length
  obtain ⟨hat, hpos, hmem⟩ := h
  cases hk : s.reverse k with
  | none =>
    rw [insert_fresh hk]
    refine ⟨fun j value => ?_, fun k' => ?_, fun k' => ?_⟩ <;> simp only [update_apply]
    · rcases Nat.lt_trichotomy j s.set.length with hj | rfl | hj
      · rw [getElem?_append_left hj, hat]
        grind
      · rw [getElem?_concat_length]
        grind
      · rw [getElem?_eq_none (by simpa using Nat.succ_le_of_lt hj)]
        grind
    · split
      · exact fun h => Nat.succ_ne_zero _ (Option.some.inj h)
      · exact hpos k'
    · rw [Set.mem_union, Set.mem_singleton_iff, hmem]
      split <;> simp [*]
  | some i =>
    have hsome : (lookup s.reverse (.key k)).isSome := by rw [lookup, hk]; rfl
    have hold : S ∪ {k} = S := Set.union_eq_self_of_subset_right <|
      Set.singleton_subset_iff.mpr ((hmem k).mpr hsome)
    rw [insert, if_pos hsome, hold]
    exact ⟨hat, hpos, hmem⟩

theorem Linked.remove_key (heq : ∀ a b, eqMeta a b = true → a = b) (h : Linked S s) (k : κ) :
    Linked (S \ {k}) (remove eqMeta s (.key k)).1 := by
  cases hk : s.reverse k with
  | none =>
    have hnot : k ∉ S := by simp [h.mem, hk]
    rw [remove, lookup, hk, Set.sdiff_singleton_eq_self hnot]
    exact h
  | some i =>
    obtain ⟨j, rfl⟩ := Nat.exists_eq_add_one_of_ne_zero fun h0 => h.pos k (hk.trans (congrArg _ h0))
    have hj := h.lt_length hk
    rcases eq_nil_or_concat s.set with hnil | ⟨rest, value, hset⟩
    · rw [hnil] at hj
      cases hj
    · rw [concat_eq_append] at hset
      have hlen : s.set.length = rest.length + 1 := by simp [hset]
      obtain ⟨top, rfl, htop⟩ := (h.at_iff rest.length value).mp (by simp [hset])
      -- what is known of the two tables without the last position
      have hrest : ∀ i < rest.length, ∀ value,
          rest[i]? = some value ↔ ∃ k, value = .key k ∧ s.reverse k = some (i + 1) :=
            fun i hi value => by
        rw [← h.at_iff, hset, getElem?_append_left hi]
      have hlt : ∀ k' i, s.reverse k' = some (i + 1) → i < rest.length + 1 := fun _ _ hk' =>
        hlen ▸ h.lt_length hk'
      have hinj : ∀ k₁ k₂ i, s.reverse k₁ = some i → s.reverse k₂ = some i → k₁ = k₂ := fun _ _ _ =>
        h.inj
      obtain ⟨-, hpos, hmem⟩ := h
      by_cases hne : top = k
      · subst hne
        rw [remove_top hset (hk ▸ rfl)]
        refine ⟨fun i value => ?_, fun k' => ?_, fun k' => ?_⟩ <;> simp only [update_apply]
        · by_cases hi : i < rest.length
          · rw [hrest i hi]
            grind
          · rw [getElem?_eq_none (Nat.le_of_not_lt hi)]
            grind
        · grind
        · grind
      · have hj' : j < rest.length := by grind
        rw [remove_inner hset hk hj' hne (by simpa using mt (heq top k) hne)]
        refine ⟨fun i value => ?_, fun k' => ?_, fun k' => ?_⟩ <;> simp only [update_apply]
        · by_cases hi : i < rest.length
          · rw [getElem?_set]
            have := hrest i hi value
            grind
          · rw [getElem?_eq_none (by simpa using hi)]
            grind
        · grind
        · grind

theorem Linked.call (heq : ∀ a b, eqMeta a b = true → a = b) (h : Linked S s) {c : Call κ}
    (hc : c ≠ .insert .nan) : Linked (note S c) (call eqMeta s c) := by
  rcases c with (_ | _ | k) | (_ | _ | k)
  -- no entry for `nil` can be made, and the sequence is left as it is
  · exact h
  · exact absurd rfl hc
  · exact h.insert_key k
  · exact h
  · exact h
  · exact h.remove_key heq k

/-- **After any calls** the set has what was inserted and not removed, if NaN was not inserted and
different values are different for Lua too. -/
theorem client_set_holds (heq : ∀ a b, eqMeta a b = true → a = b) {calls : List (Call κ)}
    (hnan : .insert .nan ∉ calls) : Holds (members calls) (run eqMeta calls) := by
  have hrun : ∀ (S : Set κ) (s : NewSet κ), Linked S s →
      Linked (calls.foldl note S) (calls.foldl (call eqMeta) s) := by
    induction calls with
    | nil => exact fun S s h => h
    | cons c cs ih =>
      intro S s h
      have hc := List.ne_of_not_mem_cons hnan
      exact ih (List.not_mem_of_not_mem_cons hnan) _ _ (h.call heq hc.symm)
  refine (hrun ∅ ⟨[], fun _ => none⟩ ⟨fun j value => ?_, nofun, fun k => ?_⟩).holds
  · simp
  · simp

/-- Two values are added and one of them is taken out. -/
theorem client_set_holds_three :
    let calls : List (Call ℕ) :=
      [.insert (.key 1), .insert (.key 2), .insert .nil, .remove (.key 1)]
    Holds (members calls) (run (fun _ _ => false) calls) :=
  client_set_holds nofun (by decide)

/-- NaN is in the sequence when the call fails, and a value that is equal to the last one for its
metamethod is not taken out. -/
theorem client_set_breaks :
    ¬ (∀ calls : List (Call ℕ), Holds (members calls) (run (fun _ _ => false) calls)) ∧
    ¬ ∀ calls : List (Call ℕ), .insert .nan ∉ calls →
      Holds (members calls) (run (fun _ _ => true) calls) := by
  constructor
  · intro h
    obtain ⟨k, -, hk⟩ := ((h [.insert .nan]).mem .nan).mp (by decide)
    cases hk
  · intro h
    have := ((h [.insert (.key 0), .insert (.key 1), .remove (.key 0)] (by decide)).mem (.key 0)).mp
        (by decide)
    simp [members, note] at this

end Miqos.ClientSet
