import Mathlib.Data.List.Perm.Subperm
import Mathlib.Data.Set.Basic
import Mathlib.Order.CompletePartialOrder
import Mathlib.Order.Interval.Set.Disjoint

/-!
# Extents of a shared store

An extent is a half-open interval of positions. A ledger records which extents
of one store are live, each under the name of its owner, and which are free for
reuse. It is sound when every extent lies inside the store and no position
belongs to two of them. The lemmas say which moves of an allocator keep a ledger
sound: handing out the front of a free extent, extending the store, giving an
extent back, forgetting free extents.
-/

namespace Foundation

structure Extent where
  offset : Nat
  length : Nat
  deriving DecidableEq, Repr

namespace Extent

def stop (e : Extent) : Nat := e.offset + e.length

def span (e : Extent) : Set Nat := Set.Ico e.offset e.stop

def Apart (e f : Extent) : Prop := Disjoint e.span f.span

theorem apart_iff {e f : Extent} : Apart e f ↔ min e.stop f.stop ≤ max e.offset f.offset :=
  Set.Ico_disjoint_Ico

instance (e f : Extent) : Decidable (Apart e f) := decidable_of_iff _ apart_iff.symm

theorem Apart.symm {e f : Extent} (h : Apart e f) : Apart f e := Disjoint.symm h

theorem apart_of_length_eq_zero {e f : Extent} (h : e.length = 0) : Apart e f := by
  rw [apart_iff]
  simp only [stop, h]
  omega

/-- The front part and the rest of an extent keep apart from whatever it kept apart from. -/
theorem Apart.of_subset {e f g : Extent} (h : Apart e f) (hlow : e.offset ≤ g.offset)
    (hhigh : g.stop ≤ e.stop) : Apart g f :=
  Disjoint.mono_left (Set.Ico_subset_Ico hlow hhigh) h

theorem apart_of_stop_le {e f : Extent} (h : e.stop ≤ f.offset) : Apart e f := by
  rw [apart_iff]
  omega

end Extent

open Extent

structure Ledger (κ : Type*) where
  live : κ → Option Extent
  free : List Extent
  limit : Nat

namespace Ledger

variable {κ : Type*}

structure Inside (L : Ledger κ) : Prop where
  live_le : ∀ k e, L.live k = some e → e.stop ≤ L.limit
  free_le : ∀ e ∈ L.free, e.stop ≤ L.limit

structure Sound (L : Ledger κ) : Prop extends Inside L where
  live_live : ∀ k l e f, k ≠ l → L.live k = some e → L.live l = some f → Apart e f
  live_free : ∀ k e f, L.live k = some e → f ∈ L.free → Apart e f
  free_free : L.free.Pairwise Apart

/-- An extent is vacant for `k` when no other owner and no free extent meets it. -/
structure Vacant (L : Ledger κ) (k : κ) (e : Extent) : Prop where
  live_apart : ∀ l f, l ≠ k → L.live l = some f → Apart e f
  free_apart : ∀ f ∈ L.free, Apart e f

/-- New positions at the end of the store are vacant for everyone. -/
theorem Inside.vacant_end {L : Ledger κ} (h : L.Inside) (k : κ) (n : Nat) :
    L.Vacant k ⟨L.limit, n⟩ where
  live_apart l f _ hf := (apart_of_stop_le (h.live_le l f hf)).symm
  free_apart f hf := (apart_of_stop_le (h.free_le f hf)).symm

theorem Sound.forget {L : Ledger κ} (h : L.Sound) {free : List Extent} (hsub : free.Subperm L.free) :
    Sound { L with free := free } where
  live_le := h.live_le
  free_le f hf := h.free_le f (hsub.subset hf)
  live_live := h.live_live
  live_free k e f he hf := h.live_free k e f he (hsub.subset hf)
  free_free := by
    obtain ⟨l, hperm, hl⟩ := hsub
    exact (hperm.pairwise_iff Apart.symm).mp (h.free_free.sublist hl)

/-- Empty extents meet nothing, so recording them costs nothing. -/
theorem Sound.cons_empty {L : Ledger κ} (h : L.Sound) {e : Extent} (he : e.length = 0)
    (hle : e.stop ≤ L.limit) : Sound { L with free := e :: L.free } where
  live_le := h.live_le
  free_le f hf := by
    rcases List.mem_cons.mp hf with rfl | hf
    · exact hle
    · exact h.free_le f hf
  live_live := h.live_live
  live_free k f g hf hg := by
    rcases List.mem_cons.mp hg with rfl | hg
    · exact (apart_of_length_eq_zero he).symm
    · exact h.live_free k f g hf hg
  free_free := List.pairwise_cons.mpr ⟨fun _ _ => apart_of_length_eq_zero he, h.free_free⟩

variable [DecidableEq κ]

def assign (L : Ledger κ) (k : κ) (e : Extent) (free : List Extent) (limit : Nat) : Ledger κ where
  live := Function.update L.live k (some e)
  free := free
  limit := limit

def release (L : Ledger κ) (k : κ) (free : List Extent) : Ledger κ where
  live := Function.update L.live k none
  free := free
  limit := L.limit

theorem update_eq_some {k l : κ} {e : Option Extent} {f : Extent} {live : κ → Option Extent}
    (h : Function.update live k e l = some f) : (l = k ∧ e = some f) ∨ (l ≠ k ∧ live l = some f) := by
  by_cases hl : l = k
  · subst hl
    exact .inl ⟨rfl, by simpa using h⟩
  · exact .inr ⟨hl, by simpa [hl] using h⟩

theorem Inside.assign {L : Ledger κ} (h : L.Inside) {k : κ} {e : Extent} {free : List Extent}
    {limit : Nat} (hlimit : L.limit ≤ limit) (he : e.stop ≤ limit)
    (hfree : ∀ f ∈ free, f.stop ≤ limit) : (L.assign k e free limit).Inside where
  live_le l f hf := by
    rcases update_eq_some hf with ⟨_, hf⟩ | ⟨_, hf⟩
    · exact Option.some.inj hf ▸ he
    · exact (h.live_le l f hf).trans hlimit
  free_le := hfree

theorem Inside.release {L : Ledger κ} (h : L.Inside) (k : κ) {free : List Extent}
    (hfree : ∀ f ∈ free, f.stop ≤ L.limit) : (L.release k free).Inside where
  live_le l f hf := by
    rcases update_eq_some hf with ⟨_, hf⟩ | ⟨_, hf⟩
    · cases hf
    · exact h.live_le l f hf
  free_le := hfree

theorem Sound.assign {L : Ledger κ} (h : L.Sound) {k : κ} {e : Extent} {free : List Extent}
    {limit : Nat} (hlimit : L.limit ≤ limit) (he : e.stop ≤ limit) (hvacant : L.Vacant k e)
    (hsub : free.Subperm L.free) : (L.assign k e free limit).Sound where
  toInside := h.toInside.assign hlimit he fun f hf => (h.free_le f (hsub.subset hf)).trans hlimit
  live_live l m f g hlm hf hg := by
    rcases update_eq_some hf with ⟨hl, hf'⟩ | ⟨hl, hf'⟩ <;>
      rcases update_eq_some hg with ⟨hm, hg'⟩ | ⟨hm, hg'⟩
    · exact absurd (hl.trans hm.symm) hlm
    · exact Option.some.inj hf' ▸ hvacant.live_apart m g hm hg'
    · exact Option.some.inj hg' ▸ (hvacant.live_apart l f hl hf').symm
    · exact h.live_live l m f g hlm hf' hg'
  live_free l f g hf hg := by
    rcases update_eq_some hf with ⟨_, hf'⟩ | ⟨_, hf'⟩
    · exact Option.some.inj hf' ▸ hvacant.free_apart g (hsub.subset hg)
    · exact h.live_free l f g hf' (hsub.subset hg)
  free_free := (h.forget hsub).free_free

/-- The front of a free extent goes to `k`, the rest of it stays free, and other
free extents may be forgotten on the way. -/
theorem Sound.recycle {L : Ledger κ} (h : L.Sound) {k : κ} {e : Extent} {n : Nat}
    {rest free : List Extent} (hn : n ≤ e.length) (hperm : L.free.Perm (e :: rest))
    (hsub : free.Subperm (⟨e.offset + n, e.length - n⟩ :: rest)) :
    (L.assign k ⟨e.offset, n⟩ free L.limit).Sound := by
  have hmem : ∀ f ∈ e :: rest, f ∈ L.free := fun f hf => hperm.mem_iff.mpr hf
  have hpair := (hperm.pairwise_iff Apart.symm).mp h.free_free
  have he := h.free_le e (hmem e List.mem_cons_self)
  have hfront : (⟨e.offset, n⟩ : Extent).stop ≤ e.stop := by simp only [stop]; omega
  have hback : e.offset ≤ e.offset + n ∧ (⟨e.offset + n, e.length - n⟩ : Extent).stop ≤ e.stop := by
    simp only [stop]
    omega
  -- split the free extent first, then assign the front, which is now vacant
  have hsplit : Sound { L with free := ⟨e.offset + n, e.length - n⟩ :: rest } := by
    refine ⟨⟨h.live_le, ?_⟩, h.live_live, ?_, ?_⟩
    · intro f hf
      rcases List.mem_cons.mp hf with rfl | hf
      · exact hback.2.trans he
      · exact h.free_le f (hmem f (List.mem_cons_of_mem e hf))
    · intro l f g hf hg
      rcases List.mem_cons.mp hg with rfl | hg
      · have hfe := h.live_free l f e hf (hmem e List.mem_cons_self)
        exact (hfe.symm.of_subset hback.1 hback.2).symm
      · exact h.live_free l f g hf (hmem g (List.mem_cons_of_mem e hg))
    · rw [List.pairwise_cons] at hpair ⊢
      exact ⟨fun f hf => (hpair.1 f hf).of_subset hback.1 hback.2, hpair.2⟩
  refine hsplit.assign (Nat.le_refl _) (hfront.trans he) ⟨?_, ?_⟩ hsub
  · intro l f _ hf
    exact ((h.live_free l f e hf (hmem e List.mem_cons_self)).symm).of_subset (Nat.le_refl _) hfront
  · intro f hf
    rcases List.mem_cons.mp hf with rfl | hf
    · exact apart_of_stop_le (Nat.le_refl _)
    · exact ((List.pairwise_cons.mp hpair).1 f hf).of_subset (Nat.le_refl _) hfront

theorem Sound.release {L : Ledger κ} (h : L.Sound) {k : κ} {e : Extent} {free : List Extent}
    (hk : L.live k = some e) (hsub : free.Subperm (e :: L.free)) : (L.release k free).Sound := by
  have hall : Sound { (L.release k (e :: L.free)) with free := e :: L.free } := by
    refine ⟨h.toInside.release k ?_, ?_, ?_, ?_⟩
    · intro f hf
      rcases List.mem_cons.mp hf with rfl | hf
      · exact h.live_le k _ hk
      · exact h.free_le f hf
    · intro l m f g hlm hf hg
      rcases update_eq_some hf with ⟨_, hf'⟩ | ⟨_, hf'⟩
      · cases hf'
      rcases update_eq_some hg with ⟨_, hg'⟩ | ⟨_, hg'⟩
      · cases hg'
      exact h.live_live l m f g hlm hf' hg'
    · intro l f g hf hg
      rcases update_eq_some hf with ⟨_, hf'⟩ | ⟨hl, hf'⟩
      · cases hf'
      rcases List.mem_cons.mp hg with hg' | hg'
      · exact hg' ▸ h.live_live l k f e hl hf' hk
      · exact h.live_free l f g hf' hg'
    · exact List.pairwise_cons.mpr ⟨fun f hf => h.live_free k e f hk hf, h.free_free⟩
  exact hall.forget hsub

/-- An allocation of `n` positions: the front of a longer free extent, or an extent at
the end of the store. -/
inductive Claims (l l' : List Extent) (limit n : Nat) (e : Extent) : Prop
  | front (whole : Extent) (rest : List Extent) (hn : n < whole.length)
      (hperm : l.Perm (whole :: rest))
      (hsub : l'.Subperm (⟨whole.offset + n, whole.length - n⟩ :: rest))
      (he : e = ⟨whole.offset, n⟩)
  | back (hl : l' = l) (he : e.offset = limit)

theorem Claims.sound {L : Ledger κ} {k : κ} {l' : List Extent} {e : Extent} {limit n : Nat}
    (h : Claims L.free l' L.limit n e) (hL : L.Sound) (hlimit : limit = max L.limit e.stop) :
    (L.assign k e l' limit).Sound := by
  cases h with
  | front whole rest hn hperm hsub he =>
    subst he
    have hwhole := hL.free_le whole (hperm.mem_iff.mpr List.mem_cons_self)
    have : limit = L.limit := by simp only [stop] at hwhole hlimit; omega
    subst this
    exact hL.recycle hn.le hperm hsub
  | back hl he =>
    subst hl
    have hvacant := hL.vacant_end k e.length
    rw [← he] at hvacant
    exact hL.assign (by omega) (by omega) hvacant (List.Subperm.refl _)

omit [DecidableEq κ] in
theorem Claims.free_le {L : Ledger κ} {l' : List Extent} {e : Extent} {n : Nat}
    (h : Claims L.free l' L.limit n e) (hL : L.Inside) : ∀ f ∈ l', f.stop ≤ L.limit := by
  intro f hf
  cases h with
  | front whole rest hn hperm hsub he =>
    have hwhole := hL.free_le whole (hperm.mem_iff.mpr List.mem_cons_self)
    rcases List.mem_cons.mp (hsub.subset hf) with rfl | hf
    · simp only [stop] at hwhole ⊢
      omega
    · exact hL.free_le f (hperm.mem_iff.mpr (List.mem_cons_of_mem whole hf))
  | back hl he => exact hL.free_le f (hl ▸ hf)

theorem Claims.inside {L : Ledger κ} {k : κ} {l' : List Extent} {e : Extent} {limit n : Nat}
    (h : Claims L.free l' L.limit n e) (hL : L.Inside) (hlimit : limit = max L.limit e.stop) :
    (L.assign k e l' limit).Inside :=
  hL.assign (by omega) (by omega) fun f hf => (h.free_le hL f hf).trans (by omega)

omit [DecidableEq κ] in
theorem Claims.offset_le {L : Ledger κ} {l' : List Extent} {e : Extent} {n : Nat}
    (h : Claims L.free l' L.limit n e) (hL : L.Inside) : e.offset ≤ L.limit := by
  cases h with
  | front whole rest hn hperm hsub he =>
    have hwhole := hL.free_le whole (hperm.mem_iff.mpr List.mem_cons_self)
    subst he
    exact (Nat.le_add_right _ _).trans hwhole
  | back hl he => exact he.le

end Ledger

end Foundation
