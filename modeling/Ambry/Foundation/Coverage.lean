import Ambry.Foundation.Extent

/-!
# Covered stores

A ledger covers its store when every position is held, by a live extent or by a
free one. What a move keeps of the positions that were held, and what it loses,
decides whether the store is covered afterwards: it is exactly when all that was
lost is kept by another extent.
-/

namespace Foundation

open Extent

/-- The positions of some extents. -/
def spans (l : List Extent) : Set Nat := {p | ∃ e ∈ l, p ∈ e.span}

@[simp] theorem spans_nil : spans [] = ∅ := by
  simp [spans]

@[simp] theorem spans_cons (e : Extent) (l : List Extent) : spans (e :: l) = e.span ∪ spans l := by
  ext p
  simp [spans]

@[simp] theorem spans_append (l l' : List Extent) : spans (l ++ l') = spans l ∪ spans l' := by
  ext p
  simp [spans, or_and_right, exists_or]

theorem spans_perm {l l' : List Extent} (h : l.Perm l') : spans l = spans l' := by
  ext p
  simp [spans, h.mem_iff]

/-- Two extents of which one ends where the other begins. -/
theorem span_split (offset : Nat) {n length : Nat} (h : n ≤ length) :
    Extent.span ⟨offset, n⟩ ∪ Extent.span ⟨offset + n, length - n⟩ = Extent.span ⟨offset, length⟩ := by
  ext p
  simp only [span, stop, Set.mem_union, Set.mem_Ico]
  omega

namespace Ledger

variable {κ : Type*} {L L' : Ledger κ} {k : κ} {e : Extent}

/-- The positions of the owners other than `k`. -/
def others (L : Ledger κ) (k : κ) : Set Nat :=
  {p | ∃ l f, l ≠ k ∧ L.live l = some f ∧ p ∈ f.span}

def held (L : Ledger κ) : Set Nat := {p | ∃ k e, L.live k = some e ∧ p ∈ e.span} ∪ spans L.free

def Covered (L : Ledger κ) : Prop := Set.Iio L.limit ⊆ L.held

theorem held_of_live (h : L.live k = some e) :
    L.held = L.others k ∪ e.span ∪ spans L.free := by
  ext p
  simp only [held, others, Set.mem_union, Set.mem_ofPred_eq]
  constructor
  · rintro (⟨l, f, hf, hp⟩ | hp)
    · by_cases hl : l = k
      · subst hl
        obtain rfl := Option.some.inj (hf.symm.trans h)
        exact .inl (.inr hp)
      · exact .inl (.inl ⟨l, f, hl, hf, hp⟩)
    · exact .inr hp
  · rintro ((⟨l, f, _, hf, hp⟩ | hp) | hp)
    · exact .inl ⟨l, f, hf, hp⟩
    · exact .inl ⟨k, e, h, hp⟩
    · exact .inr hp

theorem held_of_none (h : L.live k = none) : L.held = L.others k ∪ spans L.free := by
  ext p
  simp only [held, others, Set.mem_union, Set.mem_ofPred_eq]
  constructor
  · rintro (⟨l, f, hf, hp⟩ | hp)
    · have hl : l ≠ k := by
        rintro rfl
        cases hf.symm.trans h
      exact .inl ⟨l, f, hl, hf, hp⟩
    · exact .inr hp
  · rintro (⟨l, f, _, hf, hp⟩ | hp)
    · exact .inl ⟨l, f, hf, hp⟩
    · exact .inr hp

theorem Inside.span_le (h : L.Inside) (he : L.live k = some e) : e.span ⊆ Set.Iio L.limit :=
  fun _ hp => lt_of_lt_of_le hp.2 (h.live_le k e he)

theorem Inside.spans_le (h : L.Inside) : spans L.free ⊆ Set.Iio L.limit := by
  rintro p ⟨e, he, hp⟩
  exact lt_of_lt_of_le hp.2 (h.free_le e he)

theorem covered_iff {kept lost : Set Nat} (hL : L.Covered) (hlost : lost ⊆ Set.Iio L.limit)
    (hbefore : L.held ⊆ kept ∪ lost) (hlimit : L.limit ≤ L'.limit)
    (hafter : ∀ p < L.limit, p ∈ L'.held ↔ p ∈ kept)
    (hnew : ∀ p, L.limit ≤ p → p < L'.limit → p ∈ L'.held) : L'.Covered ↔ lost ⊆ kept := by
  constructor
  · intro hL' p hp
    have hlt := hlost hp
    exact (hafter p hlt).mp (hL' (lt_of_lt_of_le hlt hlimit))
  · intro hkept p hp
    rcases Nat.lt_or_ge p L.limit with hlt | hge
    · apply (hafter p hlt).mpr
      obtain hp | hp := hbefore (hL hlt)
      · exact hp
      · exact hkept hp
    · exact hnew p hge hp

variable [DecidableEq κ]

theorem others_update (live : κ → Option Extent) (free free' : List Extent) (limit limit' : Nat)
    (o : Option Extent) :
    others ⟨Function.update live k o, free, limit⟩ k = others ⟨live, free', limit'⟩ k := by
  ext p
  constructor
  · rintro ⟨l, f, hl, hf, hp⟩
    exact ⟨l, f, hl, (Function.update_of_ne hl o live).symm.trans hf, hp⟩
  · rintro ⟨l, f, hl, hf, hp⟩
    exact ⟨l, f, hl, (Function.update_of_ne hl o live).trans hf, hp⟩

theorem held_assign (L : Ledger κ) (k : κ) (e : Extent) (free : List Extent) (limit : Nat) :
    (L.assign k e free limit).held = L.others k ∪ e.span ∪ spans free := by
  have hlive : (L.assign k e free limit).live k = some e := Function.update_self ..
  rw [held_of_live hlive]
  exact congrArg (· ∪ e.span ∪ spans free) (others_update ..)

theorem held_release (L : Ledger κ) (k : κ) (free : List Extent) :
    (L.release k free).held = L.others k ∪ spans free := by
  have hlive : (L.release k free).live k = none := Function.update_self ..
  rw [held_of_none hlive]
  exact congrArg (· ∪ spans free) (others_update ..)

end Ledger

end Foundation
