import ReadingComment.Ktap.TabOps

/-!
# Store, then load (`runtime/kp_tab.c`)

`tab_set` stores an event string and a kernel stack under a string that it makes. `tab_get` makes
the event string again, but looks up what the union of the key holds, and it looks up a kernel
stack as it is.
-/

namespace Ktap

open Function

variable {σ : Type} [DecidableEq σ] [StrObj σ]

/-- There is a slot for the key: its array slot, or a node without a key. -/
def Tab.Room (t : Tab σ) (k : Val σ) : Prop :=
  arrayIndex t k ≠ none ∨ ∃ i, i < t.node.length ∧ t.keyAt i = .nil

def Loads (ks : KState σ) (t : Tab σ) (v : Val σ) : Val σ → Prop
  | .kstack _ _ _ => v = .nil
  | .eventstr stale =>
    ∃ s, stale = some s ∧ (ks.eventStringify = some (some s) ∨ t.content (.str s) = v)
  | _ => True

section

variable {t : Tab σ} {k : Val σ} {i : ℕ} (hlen : t.array.length < 2 ^ 32) (ks : KState σ)
  (hidx : arrayIndex t k = some i) (v : Val σ)

include hlen ks hidx v

theorem kpTabSet_array :
    kpTabSet ks t k v = .ok ({ t with array := t.array.set i v }, none) := by
  have hlt : i < t.array.length := arrayIndex_lt hidx
  rw [kpTabSet, tabSet_array ks hlen hidx]
  simp only [bind, Except.bind, putVal, Tab.store, if_pos hlt]
  rfl

theorem kpTabGet_set_array :
    kpTabGet ks { t with array := t.array.set i v } k = .ok (v, none) := by
  have hlt : i < t.array.length := arrayIndex_lt hidx
  have hidx' : arrayIndex { t with array := t.array.set i v } k = some i := by
    rw [← hidx]
    exact congrFun (arrayIndex_congr (List.length_set ..)) k
  have hload : Tab.load { t with array := t.array.set i v } (.array i) = .ok v := by
    rw [Tab.load, List.getElem?_set_self hlt]
  rw [kpTabGet_array ks (by rwa [List.length_set]) hidx', hload]
  rfl

end

theorem kpTabSet_node {t : Tab σ} (h : t.Inv) (ks : KState σ) {k : Val σ} (hk : k.IsKey)
    (hroom : ∃ i, i < t.node.length ∧ t.keyAt i = .nil) (v : Val σ) :
    ∃ t', kpTabSet ks t k v = .ok (t', none) ∧ t'.Inv ∧
      ∀ k', k'.IsKey → t'.content k' = update t.content k v k' := by
  rcases tabSet_spec h ks hk with ⟨-, hfull⟩ | ⟨t₁, s, hset, hinv₁, hslot, -, hsame⟩
  · obtain ⟨i, hi, hnil⟩ := hroom
    exact absurd hnil (hfull i hi)
  · obtain ⟨t₂, hstore, hinv₂, -, -, hcont⟩ := hslot.store hinv₁ hk v
    refine ⟨t₂, ?_, hinv₂, fun k' hk' => ?_⟩
    · rw [kpTabSet, hset]
      simp only [bind, Except.bind, putVal, hstore]
      rfl
    · rw [hcont k' hk']
      by_cases hkk : k' = k
      · rw [hkk, update_self, update_self]
      · rw [update_of_ne hkk, update_of_ne hkk, hsame k' hk']

omit [StrObj σ] in
theorem storedKey_array {ks : KState σ} {t : Tab σ} {key k : Val σ} {i : ℕ}
    (hkey : storedKey ks key = some k) (hidx : arrayIndex t k = some i) :
    key = k ∧ ∀ v, Loads ks t v key := by
  obtain ⟨n, rfl, -, -⟩ := arrayIndex_eq_some hidx
  cases key with
  | nil => cases hkey
  | bool b | num n | str s | obj tag gc => exact ⟨Option.some.inj hkey, fun _ => trivial⟩
  | eventstr stale | kstack depth skip stale =>
    obtain ⟨s, -, hs⟩ := Option.map_eq_some_iff.mp hkey
    cases hs

theorem kpTabGet_stored {t t' : Tab σ} (h' : t'.Inv) {ks : KState σ} {key k v : Val σ}
    (hkey : storedKey ks key = some k)
    (hcont : ∀ k', k'.IsKey → t'.content k' = update t.content k v k') :
    kpTabGet ks t' key = .ok (v, none) ↔ Loads ks t v key := by
  -- a key that is stored under its own identity
  have hplain : k.IsKey → kpTabGet ks t' k = .ok (v, none) := by
    intro hk
    rw [kpTabGet_spec h' ks hk, hcont k hk, update_self]
  cases key with
  | nil => cases hkey
  | bool b | num n | str s | obj tag gc =>
    cases hkey
    exact ⟨fun _ => trivial, fun _ => hplain trivial⟩
  | kstack depth skip stale =>
    rw [kpTabGet_kstack h']
    constructor
    · intro heq
      cases heq
      rfl
    · rintro rfl
      rfl
  | eventstr stale =>
    obtain ⟨ts, hts, rfl⟩ := Option.map_eq_some_iff.mp hkey
    have hev : ks.eventStringify = some (some ts) := Option.join_eq_some_iff.mp hts
    cases stale with
    | none =>
      rw [kpTabGet_stale ⟨rfl, ts, hev⟩]
      constructor
      · intro heq
        cases heq
      · rintro ⟨s, hs, -⟩
        cases hs
    | some s =>
      have hval : t'.content (.str s) = v ↔ s = ts ∨ t.content (.str s) = v := by
        rw [hcont (.str s) (.str s)]
        by_cases hs : s = ts
        · rw [hs, update_self]
          exact ⟨fun _ => .inl rfl, fun _ => rfl⟩
        · have hne : (Val.str s : Val σ) ≠ .str ts := fun heq => hs (Val.str.inj heq)
          rw [update_of_ne hne]
          exact ⟨.inr, fun hor => hor.resolve_left hs⟩
      rw [kpTabGet_eventstr h' hev]
      constructor
      · intro heq
        refine ⟨s, rfl, ?_⟩
        rcases hval.mp (Prod.mk.inj (Except.ok.inj heq)).1 with rfl | hold
        · exact .inl hev
        · exact .inr hold
      · rintro ⟨s', hs', hor⟩
        cases hs'
        refine congrArg (fun w => Except.ok (w, none)) (hval.mpr (hor.imp_left fun heq => ?_))
        exact Option.some.inj (Option.some.inj (heq.symm.trans hev))

/-- **Store, then load**, on every table that the operations come to. -/
theorem store_then_load {size : Size} {garbage : ℕ → Node σ} {garbageA : ℕ → Val σ} {t₀ t : Tab σ}
    {ops : List (KState σ × TabOp σ)} (hnew : size.create garbage garbageA = .ok t₀)
    (hrun : runTab t₀ ops = .ok t) {ks : KState σ} {key k : Val σ}
    (hkey : storedKey ks key = some k)
    (hroom : t.Room k) (v : Val σ) :
    ∃ t', kpTabSet ks t key v = .ok (t', none) ∧
      (kpTabGet ks t' key = .ok (v, none) ↔ Loads ks t v key) := by
  have hsound : t.Sound := by
    obtain ⟨hfine, hnot⟩ := (Size.create_sound hnew).1.run ops
    by_cases hops : FineRun t₀ ops
    · obtain ⟨t', hrun', hsound⟩ := hfine hops
      obtain rfl := Except.ok.inj (hrun.symm.trans hrun')
      exact hsound
    · obtain ⟨e, he⟩ := hnot hops
      cases he.symm.trans hrun
  have hlen : t.array.length < 2 ^ 32 := hsound.elim (fun h => h.asize_lt) fun h => h.asize_lt
  cases hidx : arrayIndex t k with
  | some i =>
    obtain ⟨rfl, hloads⟩ := @storedKey_array σ _ ks t key k i hkey hidx
    refine ⟨_, kpTabSet_array hlen ks hidx v, fun _ => hloads v, fun _ => ?_⟩
    exact kpTabGet_set_array hlen ks hidx v
  | none =>
    have hfree := hroom.resolve_left fun hne => hne hidx
    have hinv : t.Inv := by
      refine hsound.resolve_right fun hbare => ?_
      obtain ⟨i, hi, -⟩ := hfree
      rw [hbare.node] at hi
      exact Nat.not_lt_zero i hi
    obtain ⟨hk, heq⟩ := @tabSet_stored σ _ _ ks t key k hkey
    obtain ⟨t', hset, hinv', hcont⟩ := kpTabSet_node hinv ks hk hfree v
    refine ⟨t', ?_, kpTabGet_stored hinv' hkey hcont⟩
    rw [kpTabSet, heq]
    exact hset

/-- A string stored and loaded in an event whose string the union of the key holds. -/
theorem store_then_load_event :
    letI : StrObj Bool := ⟨fun _ => 0⟩
    ∃ t', kpTabSet ⟨some (some true), fun _ _ => none⟩ (blank Bool 1 1) (.eventstr (some true))
        (.num 5) = .ok (t', none) ∧
      kpTabGet ⟨some (some true), fun _ _ => none⟩ t' (.eventstr (some true)) =
        .ok (.num 5, none) := by
  let : StrObj Bool := ⟨fun _ => 0⟩
  have hnew :
      (Size.new 1 1).create (fun _ => Node.empty) (fun _ => .nil) = .ok (blank Bool 1 1) := by
    decide
  have hrun : runTab (blank Bool 1 1) [] = .ok (blank Bool 1 1) := rfl
  have hkey : storedKey ⟨some (some true), fun _ _ => none⟩ (.eventstr (some true)) =
      some (.str true) := rfl
  obtain ⟨t', hset, hget⟩ := store_then_load hnew hrun hkey (.inr ⟨0, by decide, rfl⟩) (.num 5)
  exact ⟨t', hset, hget.mpr ⟨true, rfl, .inl rfl⟩⟩

/-- A kernel stack is stored as a string and looked up as a stack. -/
theorem kstack_not_loaded :
    letI : StrObj Bool := ⟨fun _ => 0⟩
    ¬ ∀ (size : Size) (garbage : ℕ → Node Bool) (garbageA : ℕ → Val Bool) (t₀ t : Tab Bool)
      (ops : List (KState Bool × TabOp Bool)) (ks : KState Bool) (key k v : Val Bool),
      size.create garbage garbageA = .ok t₀ → runTab t₀ ops = .ok t → storedKey ks key = some k →
        t.Room k → ∃ t', kpTabSet ks t key v = .ok (t', none) ∧
          kpTabGet ks t' key = .ok (v, none) := by
  let : StrObj Bool := ⟨fun _ => 0⟩
  intro h
  obtain ⟨t', hset, hget⟩ := h (.new 1 1) (fun _ => Node.empty) (fun _ => .nil) (blank Bool 1 1)
    (blank Bool 1 1) [] ⟨none, fun _ _ => some true⟩ (.kstack 8 0 0) (.str true) (.num 5)
    (by decide) rfl rfl (.inr ⟨0, by decide, rfl⟩)
  have hset' : kpTabSet ⟨none, fun _ _ => some true⟩ (blank Bool 1 1) (.kstack 8 0 0) (.num 5) =
      .ok (⟨[.nil], [⟨.num 5, .str true, none⟩, Node.empty], 2, 1, 1⟩, none) := by decide
  obtain rfl := (Prod.mk.inj (Except.ok.inj (hset'.symm.trans hset))).1
  exact absurd hget (by decide)

end Ktap
