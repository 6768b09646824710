import Mathlib.Data.Finset.SDiff
import Mathlib.Logic.Function.Basic

/-!
# Exclusive ownership

Owners hold resources under one table of locks. A resource is acquired only while
nobody has locked it, and what an owner holds stays locked until the owner lets go
of it, so no two owners ever hold the same. Some resources are reserved: they are
locked from the start, and nobody acquires them.
-/

namespace Foundation

variable {ι ρ : Type*} [DecidableEq ι] [DecidableEq ρ]

structure Exclusive (reserved : Finset ρ) (held : ι → List ρ) (locked : Finset ρ) : Prop where
  nodup : ∀ n, (held n).Nodup
  apart : ∀ m n, m ≠ n → (held m).Disjoint (held n)
  mem_locked : ∀ n, ∀ i ∈ held n, i ∈ locked
  not_reserved : ∀ n, ∀ i ∈ held n, i ∉ reserved
  reserved_subset : reserved ⊆ locked

namespace Exclusive

variable {reserved locked locked' : Finset ρ} {held : ι → List ρ}

omit [DecidableEq ι] [DecidableEq ρ] in
theorem start (reserved : Finset ρ) : Exclusive reserved (fun _ : ι => []) reserved where
  nodup _ := List.nodup_nil
  apart _ _ _ := List.disjoint_nil_left _
  mem_locked _ _ h := absurd h List.not_mem_nil
  not_reserved _ _ h := absurd h List.not_mem_nil
  reserved_subset := Finset.Subset.refl _

omit [DecidableEq ι] [DecidableEq ρ] in
/-- Locks that nobody asked for do no harm. -/
theorem lock (h : Exclusive reserved held locked) (hle : locked ⊆ locked') :
    Exclusive reserved held locked' where
  nodup := h.nodup
  apart := h.apart
  mem_locked n i hi := hle (h.mem_locked n i hi)
  not_reserved := h.not_reserved
  reserved_subset := h.reserved_subset.trans hle

/-- An owner gets resources that were not locked. -/
theorem acquire (h : Exclusive reserved held locked) (n : ι) {new : List ρ} (hnew : new.Nodup)
    (hfresh : ∀ i ∈ new, i ∉ locked) :
    Exclusive reserved (Function.update held n new) (locked ∪ new.toFinset) := by
  have hother : ∀ m, m ≠ n → ∀ i ∈ held m, i ∉ new :=
    fun m _ i hi hmem => hfresh i hmem (h.mem_locked m i hi)
  constructor
  · intro m
    rcases eq_or_ne m n with rfl | hne
    · rwa [Function.update_self]
    · rw [Function.update_of_ne hne]
      exact h.nodup m
  · intro m k hmk
    rcases eq_or_ne m n with rfl | hm
    · rw [Function.update_self, Function.update_of_ne hmk.symm]
      exact fun i hi hk => hother k hmk.symm i hk hi
    · rw [Function.update_of_ne hm]
      rcases eq_or_ne k n with rfl | hk
      · rw [Function.update_self]
        exact fun i hi hnew => hother m hm i hi hnew
      · rw [Function.update_of_ne hk]
        exact h.apart m k hmk
  · intro m i hi
    rw [Finset.mem_union, List.mem_toFinset]
    rcases eq_or_ne m n with rfl | hm
    · rw [Function.update_self] at hi
      exact .inr hi
    · rw [Function.update_of_ne hm] at hi
      exact .inl (h.mem_locked m i hi)
  · intro m i hi
    rcases eq_or_ne m n with rfl | hm
    · rw [Function.update_self] at hi
      exact fun hmem => hfresh i hi (h.reserved_subset hmem)
    · rw [Function.update_of_ne hm] at hi
      exact h.not_reserved m i hi
  · exact h.reserved_subset.trans Finset.subset_union_left

/-- An owner lets go of what it holds. -/
theorem release (h : Exclusive reserved held locked) (n : ι) :
    Exclusive reserved (Function.update held n []) (locked \ (held n).toFinset) := by
  have hsub : ∀ m, ∀ i ∈ Function.update held n [] m, m ≠ n ∧ i ∈ held m := by
    intro m i hi
    rcases eq_or_ne m n with rfl | hm
    · rw [Function.update_self] at hi
      exact absurd hi List.not_mem_nil
    · rw [Function.update_of_ne hm] at hi
      exact ⟨hm, hi⟩
  constructor
  · intro m
    rcases eq_or_ne m n with rfl | hm
    · rw [Function.update_self]
      exact List.nodup_nil
    · rw [Function.update_of_ne hm]
      exact h.nodup m
  · intro m k hmk i hi hk
    exact h.apart m k hmk (hsub m i hi).2 (hsub k i hk).2
  · intro m i hi
    obtain ⟨hm, hi⟩ := hsub m i hi
    rw [Finset.mem_sdiff, List.mem_toFinset]
    exact ⟨h.mem_locked m i hi, fun hn => h.apart m n hm hi hn⟩
  · exact fun m i hi => h.not_reserved m i (hsub m i hi).2
  · intro i hi
    rw [Finset.mem_sdiff, List.mem_toFinset]
    exact ⟨h.reserved_subset hi, fun hn => h.not_reserved n i hn hi⟩

end Exclusive

end Foundation
