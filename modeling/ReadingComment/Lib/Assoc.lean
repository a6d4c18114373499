import Mathlib.Data.List.AList

/-!
# Tables with other values

Association lists whose values are changed one by one, as a loop over a table does.
-/

namespace Lib

variable {α β γ : Type}

/-- The table with other values at the same keys. -/
def mapVals (f : α → β → γ) (s : AList fun _ : α => β) : AList fun _ : α => γ where
  entries := s.entries.map fun x => ⟨x.1, f x.1 x.2⟩
  nodupKeys := by
    rw [List.NodupKeys, List.keys, List.map_map]
    exact s.nodupKeys

variable {f : α → β → γ} {s : AList fun _ : α => β}

variable {a : α}

theorem mem_entries_mapVals {c : γ} :
    ⟨a, c⟩ ∈ (mapVals f s).entries ↔ ∃ b, ⟨a, b⟩ ∈ s.entries ∧ c = f a b := by
  rw [mapVals, List.mem_map]
  constructor
  · rintro ⟨⟨a', b⟩, hmem, heq⟩
    cases heq
    exact ⟨b, hmem, rfl⟩
  · rintro ⟨b, hmem, rfl⟩
    exact ⟨⟨a, b⟩, hmem, rfl⟩

theorem mem_mapVals : a ∈ mapVals f s ↔ a ∈ s := by
  rw [AList.mem_keys, AList.mem_keys, AList.keys, AList.keys, List.keys, mapVals, List.map_map]
  rfl

/-- The values in the list are the values that are found. -/
theorem mem_entries_iff [DecidableEq α] {b : β} : ⟨a, b⟩ ∈ s.entries ↔ s.lookup a = some b :=
  (List.mem_dlookup_iff s.nodupKeys).symm

theorem lookup_mapVals [DecidableEq α] (f : α → β → γ) (s : AList fun _ : α => β) (a : α) :
    (mapVals f s).lookup a = (s.lookup a).map (f a) := by
  refine Option.ext fun c => ?_
  rw [← mem_entries_iff, mem_entries_mapVals, Option.map_eq_some_iff]
  simp only [mem_entries_iff, eq_comm]

theorem mem_of_entry {b : β} (h : ⟨a, b⟩ ∈ s.entries) : a ∈ s :=
  AList.mem_keys.mpr (List.mem_keys_of_mem h)

theorem exists_entry (h : a ∈ s) : ∃ b, ⟨a, b⟩ ∈ s.entries :=
  List.exists_of_mem_keys (AList.mem_keys.mp h)

end Lib
