import Mathlib.Data.List.AList

/-!
# Lookups in association lists

Where an entry comes from that is found after an insertion or an erasure.
-/

namespace Foundation

variable {κ α : Type*} [DecidableEq κ] {l : AList fun _ : κ => α} {k k' : κ} {a a' : α}

theorem mem_iff_lookup : k ∈ l ↔ ∃ a, l.lookup k = some a := by
  rw [← AList.lookup_isSome, Option.isSome_iff_exists]

theorem mem_of_lookup (h : l.lookup k = some a) : k ∈ l := mem_iff_lookup.mpr ⟨a, h⟩

theorem lookup_insert_cases (h : (l.insert k a).lookup k' = some a') :
    (k' = k ∧ a' = a) ∨ (k' ≠ k ∧ l.lookup k' = some a') := by
  rcases eq_or_ne k' k with rfl | hne
  · rw [AList.lookup_insert] at h
    exact .inl ⟨rfl, (Option.some.inj h).symm⟩
  · rw [AList.lookup_insert_ne hne] at h
    exact .inr ⟨hne, h⟩

theorem lookup_erase_some (h : (l.erase k).lookup k' = some a) : k' ≠ k ∧ l.lookup k' = some a := by
  rcases eq_or_ne k' k with rfl | hne
  · rw [AList.lookup_erase] at h
    cases h
  · rw [AList.lookup_erase_ne hne] at h
    exact ⟨hne, h⟩

end Foundation
