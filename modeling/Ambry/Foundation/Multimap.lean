import Mathlib.Order.Lattice
import Mathlib.Data.List.Perm.Subperm

/-!
# Ordered multimaps

Entries sorted by key; entries of one key stay in the order they were added.
`emplace` puts an entry behind the entries of its own key, `erase` drops every
entry of a key.
-/

namespace Foundation

structure Multimap (κ α : Type) [LinearOrder κ] where
  entries : List (κ × α)
  sorted : entries.Pairwise (fun a b => a.1 ≤ b.1)

namespace Multimap

variable {κ α : Type} [LinearOrder κ]

def place (k : κ) (a : α) : List (κ × α) → List (κ × α)
  | [] => [(k, a)]
  | e :: es => if e.1 ≤ k then e :: place k a es else (k, a) :: e :: es

theorem place_perm (k : κ) (a : α) (es : List (κ × α)) : (place k a es).Perm ((k, a) :: es) := by
  induction es with
  | nil => exact .refl _
  | cons e es ih =>
    rw [place]
    split
    · exact (ih.cons e).trans (.swap _ _ _)
    · exact .refl _

theorem place_sorted (k : κ) (a : α) (es : List (κ × α))
    (h : es.Pairwise (fun a b => a.1 ≤ b.1)) :
    (place k a es).Pairwise (fun a b => a.1 ≤ b.1) := by
  induction es with
  | nil => simp [place]
  | cons e es ih =>
    obtain ⟨he, hes⟩ := List.pairwise_cons.mp h
    rw [place]
    split
    · rename_i hle
      refine List.pairwise_cons.mpr ⟨fun b hb => ?_, ih hes⟩
      rcases List.mem_cons.mp ((place_perm k a es).mem_iff.mp hb) with rfl | hb
      · exact hle
      · exact he b hb
    · rename_i hlt
      have hk : k ≤ e.1 := le_of_not_ge hlt
      refine List.pairwise_cons.mpr ⟨fun b hb => ?_, h⟩
      rcases List.mem_cons.mp hb with rfl | hb
      · exact hk
      · exact le_trans hk (he b hb)

def empty : Multimap κ α := ⟨[], .nil⟩

def emplace (m : Multimap κ α) (k : κ) (a : α) : Multimap κ α :=
  ⟨place k a m.entries, place_sorted k a _ m.sorted⟩

def erase (m : Multimap κ α) (k : κ) : Multimap κ α :=
  ⟨m.entries.filter (fun e => e.1 ≠ k), m.sorted.filter _⟩

@[simp] theorem entries_empty : (empty : Multimap κ α).entries = [] := rfl

theorem emplace_perm (m : Multimap κ α) (k : κ) (a : α) :
    (m.emplace k a).entries.Perm ((k, a) :: m.entries) :=
  place_perm k a m.entries

theorem foldl_emplace_perm (m : Multimap κ α) (es : List (κ × α)) :
    (es.foldl (fun m e => m.emplace e.1 e.2) m).entries.Perm (es ++ m.entries) := by
  induction es generalizing m with
  | nil => exact .refl _
  | cons e es ih =>
    apply (ih (m.emplace e.1 e.2)).trans
    exact ((m.emplace_perm e.1 e.2).append_left es).trans List.perm_middle

theorem mem_emplace {m : Multimap κ α} {k : κ} {a : α} {e : κ × α} :
    e ∈ (m.emplace k a).entries ↔ e = (k, a) ∨ e ∈ m.entries := by
  rw [(m.emplace_perm k a).mem_iff, List.mem_cons]

theorem mem_erase {m : Multimap κ α} {k : κ} {e : κ × α} :
    e ∈ (m.erase k).entries ↔ e ∈ m.entries ∧ e.1 ≠ k := by
  simp [erase]

section
variable {k : κ} {p : κ × α → Bool} (hp : ∀ e, p e = true ↔ e.1 = k)
include hp

theorem filter_erase (m : Multimap κ α) : (m.erase k).entries.filter p = [] := by
  rw [List.filter_eq_nil_iff]
  intro e he
  rw [hp]
  exact (mem_erase.mp he).2

/-- What is dropped and what is left are the whole. -/
theorem erase_length (m : Multimap κ α) :
    (m.entries.filter p).length + (m.erase k).entries.length = m.entries.length := by
  have hrest : m.entries.filter (fun e => !p e) = (m.erase k).entries := by
    apply List.filter_congr
    intro e _
    rw [Bool.eq_iff_iff, Bool.not_eq_true', ← Bool.not_eq_true, hp, decide_eq_true_iff]
  rw [← hrest]
  exact (List.length_eq_length_filter_add p).symm

end

theorem erase_subperm {m : Multimap κ α} {e : κ × α} (he : e ∈ m.entries) :
    ∃ rest, m.entries.Perm (e :: rest) ∧ (m.erase e.1).entries.Subperm rest := by
  obtain ⟨before, after, heq⟩ := List.append_of_mem he
  refine ⟨before ++ after, heq ▸ List.perm_middle, List.Sublist.subperm ?_⟩
  simp only [erase, heq, List.filter_append, List.filter_cons, ne_eq, not_true_eq_false,
    decide_false, Bool.false_eq_true, if_false]
  exact List.filter_sublist.append List.filter_sublist

theorem erase_perm {m : Multimap κ α} {e : κ × α} {rest : List (κ × α)}
    (hperm : m.entries.Perm (e :: rest)) (hunique : ∀ f ∈ rest, f.1 ≠ e.1) :
    (m.erase e.1).entries.Perm rest := by
  have h := hperm.filter (fun f => f.1 ≠ e.1)
  rw [List.filter_cons_of_neg (by simp)] at h
  have hrest : rest.filter (fun f => f.1 ≠ e.1) = rest :=
    List.filter_eq_self.mpr fun f hf => by simpa using hunique f hf
  rwa [hrest] at h

end Multimap

end Foundation
