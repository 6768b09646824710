import Ambry.Foundation.Coverage
import Ambry.Foundation.Lookup
import Ambry.Foundation.Run
import Ambry.Lib.Ledger

/-!
# Lost space

An update that moves a value does not give the old extent back, and reusing a
free extent drops all free entries of its length. The data file stays covered as
long as the positions lost this way are in other extents.
-/

namespace Ambry

open Foundation Foundation.Extent

/-- The free entries that are dropped when `n` bytes are placed, with the one that is used. -/
def dropped (l : FreeList) (n : Nat) : List Extent :=
  match RW.firstLonger l n with
  | some entry => (l.entries.filter fun f => f.1 = entry.1).map freeExtent
  | none => []

/-- The extents that hold positions of the free list afterwards: those that are not dropped, and
the one that is used. -/
def keptFree (l : FreeList) (n : Nat) : List Extent :=
  match RW.firstLonger l n with
  | some entry => freeExtent entry :: extents (l.erase entry.1)
  | none => extents l

namespace DB

def others (db : DB) (key : Bytes) : List Extent :=
  (db.ctx.index.entries.filter fun e => e.1 ≠ key).map fun e => e.2.extent

/-- The extents that an operation takes from the index and from the free list. -/
def lost (db : DB) : Op → List Extent
  | .set key value => if key ∈ db.ctx.index then [] else dropped db.ctx.freeList value.length
  | .update key value =>
    match db.ctx.index.lookup key with
    | none => []
    | some old =>
      if old.length.toNat < value.length then [old.extent]
      else old.extent :: dropped db.ctx.freeList value.length
  | .erase _ => []

/-- The extents in which it leaves a position that was in an extent before. -/
def kept (db : DB) : Op → List Extent
  | .set key value => db.others key ++ keptFree db.ctx.freeList value.length
  | .update key value =>
    match db.ctx.index.lookup key with
    | none => []
    | some old =>
      if old.length.toNat < value.length then
        ⟨old.offset.toNat, (UInt32.ofNat value.length).toNat⟩ ::
          (db.others key ++ extents db.ctx.freeList)
      else db.others key ++ keptFree db.ctx.freeList value.length
  | .erase _ => []

/-- Every position that the operation takes out of an extent is in another one afterwards. -/
def Retains (db : DB) (op : Op) : Prop :=
  ∀ e ∈ db.lost op, ∀ p < e.stop, e.offset ≤ p → ∃ f ∈ db.kept op, f.offset ≤ p ∧ p < f.stop

instance (db : DB) (op : Op) : Decidable (db.Retains op) :=
  inferInstanceAs (Decidable (∀ e ∈ db.lost op, ∀ p < e.stop, e.offset ≤ p →
    ∃ f ∈ db.kept op, f.offset ≤ p ∧ p < f.stop))

theorem retains_iff {db : DB} {op : Op} : db.Retains op ↔ spans (db.lost op) ⊆ spans (db.kept op) := by
  constructor
  · rintro h p ⟨e, he, hle, hlt⟩
    exact h e he p hlt hle
  · intro h e he p hlt hle
    exact h ⟨e, he, hle, hlt⟩

theorem spans_others (db : DB) (key : Bytes) : spans (db.others key) = db.ledger.others key := by
  ext p
  constructor
  · rintro ⟨f, hf, hp⟩
    obtain ⟨⟨k, data⟩, hmem, rfl⟩ := List.mem_map.mp hf
    obtain ⟨hmem, hne⟩ := List.mem_filter.mp hmem
    have hlive : db.ledger.live k = some data.extent :=
      congrArg (Option.map IndexData.extent) (AList.mem_lookup_iff.mpr hmem)
    exact ⟨k, data.extent, by simpa using hne, hlive, hp⟩
  · rintro ⟨k, f, hne, hf, hp⟩
    obtain ⟨data, hdata, rfl⟩ := Option.map_eq_some_iff.mp hf
    refine ⟨data.extent, List.mem_map.mpr ⟨⟨k, data⟩, List.mem_filter.mpr ⟨?_, ?_⟩, rfl⟩, hp⟩
    · exact AList.mem_lookup_iff.mp hdata
    · simpa using hne

end DB

theorem spans_extents (l : FreeList) (n : Nat) :
    spans (extents l) = spans (keptFree l n) ∪ spans (dropped l n) := by
  rw [keptFree, dropped]
  cases hfind : RW.firstLonger l n with
  | none => simp
  | some entry =>
    have hentry : (freeExtent entry).span ⊆ spans (extents l) := by
      intro p hp
      exact ⟨freeExtent entry, List.mem_map.mpr ⟨entry, firstLonger_mem hfind, rfl⟩, hp⟩
    ext p
    constructor
    · rintro ⟨f, hf, hp⟩
      obtain ⟨g, hg, rfl⟩ := List.mem_map.mp hf
      by_cases hlen : g.1 = entry.1
      · refine .inr ⟨freeExtent g, List.mem_map.mpr ⟨g, List.mem_filter.mpr ⟨hg, ?_⟩, rfl⟩, hp⟩
        simpa using hlen
      · refine .inl ⟨freeExtent g, List.mem_cons_of_mem _ ?_, hp⟩
        exact List.mem_map.mpr ⟨g, Multimap.mem_erase.mpr ⟨hg, hlen⟩, rfl⟩
    · rintro (⟨f, hf, hp⟩ | ⟨f, hf, hp⟩)
      · obtain rfl | hf := List.mem_cons.mp hf
        · exact hentry hp
        · obtain ⟨g, hg, rfl⟩ := List.mem_map.mp hf
          exact ⟨freeExtent g, List.mem_map.mpr ⟨g, (Multimap.mem_erase.mp hg).1, rfl⟩, hp⟩
      · obtain ⟨g, hg, rfl⟩ := List.mem_map.mp hf
        exact ⟨freeExtent g, List.mem_map.mpr ⟨g, (List.mem_filter.mp hg).1, rfl⟩, hp⟩

section
variable [Machine] {l l' : FreeList} {file file' : Bytes} {n size : Nat} {pos : UInt64}

/-- What an allocation gives to the value and leaves free is, below the end of the file, what it
keeps of the free list. -/
theorem Allocated.spans_eq (h : Allocated l file n pos l' file') (hsize : size ≤ OFF_MAX)
    (hinside : ∀ e ∈ extents l, e.stop ≤ size) {p : Nat} (hp : p < size) :
    p ∈ Extent.span ⟨(landing size pos).toNat, (UInt32.ofNat n).toNat⟩ ∪ spans (extents l') ↔
      p ∈ spans (keptFree l n) := by
  cases h with
  | atEnd hfind =>
    rw [keptFree, hfind, landing_npos hsize]
    constructor
    · rintro (hspan | hp)
      · exact absurd hspan.1 (Nat.not_le_of_lt hp)
      · exact hp
    · exact .inr
  | recycled entry hfind =>
    have hlt := firstLonger_lt hfind
    have hbound := entry.1.toNat_lt
    have hstop : entry.2.offset.toNat + entry.1.toNat ≤ size :=
      hinside _ (List.mem_map.mpr ⟨entry, firstLonger_mem hfind, rfl⟩)
    obtain ⟨hoffset, hlength⟩ := rest_toNat hlt (hstop.trans hsize)
    have hlen : (UInt32.ofNat n).toNat = n := by
      rw [UInt32.toNat_ofNat', Nat.mod_eq_of_lt (by omega)]
    have hperm := (Multimap.emplace_perm (l.erase entry.1) (restLength entry n)
      ⟨restOffset entry n, UInt32.ofNat (zeroSlot file entry.2.freeListOffset).length⟩).map freeExtent
    have hrest : freeExtent (restLength entry n,
        ⟨restOffset entry n, UInt32.ofNat (zeroSlot file entry.2.freeListOffset).length⟩) =
        ⟨entry.2.offset.toNat + n, entry.1.toNat - n⟩ := by
      rw [freeExtent, hoffset, hlength]
    rw [List.map_cons, hrest] at hperm
    rw [keptFree, hfind, landing_of_le (by omega), hlen, extents, spans_perm hperm, spans_cons,
      spans_cons, ← Set.union_assoc, span_split _ hlt.le]
    rfl

namespace DB

variable {db db' : DB} {key value : Bytes} {op : Op} {r : Result}

/-- A value of `n` bytes is placed; `old` holds what its key held before. -/
theorem covered_placed {old : Set Nat} (hL : db.ledger.Inside) (hC : db.ledger.Covered)
    (halloc : Allocated db.ctx.freeList file n pos l' file')
    (hheld : db.ledger.held = db.ledger.others key ∪ old ∪ spans db.ledger.free)
    (hold : old ⊆ Set.Iio db.ledger.limit) :
    (db.ledger.assign key ⟨(landing db.im.dat.size pos).toNat, (UInt32.ofNat n).toNat⟩ (extents l')
        (max db.ledger.limit
          ((landing db.im.dat.size pos).toNat + (UInt32.ofNat n).toNat))).Covered ↔
      old ∪ spans (dropped db.ctx.freeList n) ⊆
        db.ledger.others key ∪ spans (keptFree db.ctx.freeList n) := by
  have hsplit := spans_extents db.ctx.freeList n
  have hfree : spans (extents db.ctx.freeList) ⊆ Set.Iio db.ledger.limit := hL.spans_le
  have hoffset := (halloc.claims db.size_le hL.free_le).offset_le hL
  apply Ledger.covered_iff hC
  · apply Set.union_subset hold
    exact Set.subset_union_right.trans (hsplit.symm.subset.trans hfree)
  · rw [hheld]
    change _ ∪ _ ∪ spans (extents db.ctx.freeList) ⊆ _
    rw [hsplit]
    intro p hp
    simp only [Set.mem_union] at hp ⊢
    tauto
  · exact Nat.le_max_left _ _
  · intro p hp
    rw [Ledger.held_assign, Set.union_assoc]
    exact or_congr Iff.rfl (halloc.spans_eq db.size_le hL.free_le hp)
  · intro p hge hlt
    rw [Ledger.held_assign]
    refine .inl (.inr ⟨hoffset.trans hge, ?_⟩)
    obtain hlt | hlt := lt_max_iff.mp hlt
    · exact absurd hge (Nat.not_le_of_lt hlt)
    · exact hlt

theorem covered_set (hL : db.ledger.Inside) (hC : db.ledger.Covered)
    (h : db.set key value = some (r, db')) :
    db'.ledger.Covered ↔ db.Retains (.set key value) := by
  rw [retains_iff]
  obtain ⟨⟨data, hk⟩, _, hdb⟩ | ⟨hk, _, pos, hout⟩ := set_cases h
  · have hmem : key ∈ db.ctx.index := mem_of_lookup hk
    simp [hdb, lost, hmem, hC]
  · have hmem : key ∉ db.ctx.index := AList.lookup_eq_none.mp hk
    have hnone : db.ledger.live key = none := by
      change (db.ctx.index.lookup key).map IndexData.extent = none
      rw [hk]
      rfl
    have hheld : db.ledger.held = db.ledger.others key ∪ ∅ ∪ spans db.ledger.free := by
      rw [Ledger.held_of_none hnone, Set.union_empty]
    have hcovered := covered_placed hL hC hout.allocated hheld (Set.empty_subset _)
    have hfree : db'.ledger.free = extents db'.ctx.freeList := rfl
    rw [hout.ledger_eq hL, hfree]
    simpa [lost, kept, hmem, spans_others] using hcovered

theorem covered_update (hL : db.ledger.Inside) (hC : db.ledger.Covered)
    (h : db.update key value = some (r, db')) :
    db'.ledger.Covered ↔ db.Retains (.update key value) := by
  rw [retains_iff]
  obtain ⟨hk, _, hdb⟩ | ⟨old, hk, _, pos, hout⟩ := update_cases h
  · simp [hdb, lost, hk, hC]
  · have hlive : db.ledger.live key = some old.extent := congrArg (Option.map IndexData.extent) hk
    have hheld := Ledger.held_of_live hlive
    have hold := hL.span_le hlive
    rw [hout.ledger_eq hL hk]
    by_cases hgrow : old.length.toNat < value.length
    · obtain ⟨hland, hlist, _, hstop⟩ := hout.grown hL hk hgrow
      have hfree : db'.ledger.free = extents db.ctx.freeList := congrArg extents hlist
      simp only [lost, kept, hk, if_pos hgrow, spans_cons, spans_nil, spans_append, spans_others,
        Set.union_empty]
      rw [hland, hfree]
      apply Ledger.covered_iff hC hold
      · rw [hheld]
        intro p hp
        simp only [Set.mem_union] at hp ⊢
        tauto
      · exact Nat.le_max_left _ _
      · intro p _
        rw [Ledger.held_assign]
        simp only [Set.mem_union]
        tauto
      · intro p hge hlt
        rw [Ledger.held_assign]
        have hoffset : old.offset.toNat ≤ p :=
          ((Nat.le_add_right _ _).trans hstop).trans hge
        refine .inl (.inr ⟨hoffset, ?_⟩)
        obtain hlt | hlt := lt_max_iff.mp hlt
        · exact absurd hge (Nat.not_le_of_lt hlt)
        · exact hlt
    · have halloc := hout.allocated
      rw [if_neg hgrow] at halloc
      have hcovered := covered_placed hL hC halloc hheld hold
      have hfree : db'.ledger.free = extents db'.ctx.freeList := rfl
      rw [hfree]
      simpa [lost, kept, hk, hgrow, spans_others] using hcovered

theorem covered_erase (hC : db.ledger.Covered) (h : db.erase key = some (r, db')) :
    db'.ledger.Covered := by
  obtain ⟨_, _, hdb⟩ | ⟨old, hk, _, hout⟩ := erase_cases h
  · exact hdb ▸ hC
  · have hlive : db.ledger.live key = some old.extent := congrArg (Option.map IndexData.extent) hk
    obtain ⟨hledger, hperm⟩ := hout.ledger_eq
    have hheld : db'.ledger.held = db.ledger.held := by
      rw [hledger, Ledger.held_release, spans_perm hperm, spans_cons, Ledger.held_of_live hlive,
        Set.union_assoc]
    rw [Ledger.Covered, hheld, hledger]
    exact hC

/-- A step keeps the file covered exactly when it loses nothing. -/
theorem covered_apply (hL : db.ledger.Inside) (hC : db.ledger.Covered)
    (h : db.apply op = some (r, db')) : db'.ledger.Covered ↔ db.Retains op := by
  cases op with
  | set key value => exact covered_set hL hC h
  | update key value => exact covered_update hL hC h
  | erase key =>
    constructor
    · rintro - e he
      cases he
    · exact fun _ => covered_erase hC h

/-- In a run that loses nothing, every position of the data file is in the extent of a live key or
of a free entry, and the next step keeps it so exactly when it loses nothing either. -/
theorem covered_run {indet : UInt8} {name : Bytes} {options : Options} {db₀ : DB}
    {trace : List (Op × Result)} (hopen : (new name options).open indet = some (r, db₀))
    (hrun : Run (Steps apply Retains) db₀ trace db) :
    db.ledger.Covered ∧ ∀ op r db', db.apply op = some (r, db') →
      (db'.ledger.Covered ↔ db.Retains op) := by
  rw [open_new] at hopen
  cases hopen
  have hinv : db.ledger.Inside ∧ db.ledger.Covered := by
    refine hrun.invariant (I := fun db => db.ledger.Inside ∧ db.ledger.Covered) ?_ ?_
    · refine ⟨(opened_sound name options).toInside, ?_⟩
      intro p hp
      exact absurd hp (Nat.not_lt_zero p)
    · rintro s e s' ⟨hL, hC⟩ ⟨hretains, happly⟩
      exact ⟨inside_apply hL happly, (covered_apply hL hC happly).mpr hretains⟩
  exact ⟨hinv.2, fun op r db' h => covered_apply hinv.1 hinv.2 h⟩

end DB

end

section
attribute [local instance] littleEndian

namespace DB

/-- Space is split and used again, and a value grows in place. -/
theorem covered_run_recycled :
    ∃ trace db, Run (Steps apply Retains) (opened [] {}) trace db ∧
      db.ctx.freeList.entries.length = 1 ∧ db.ledger.Covered := by
  have hrun : ∃ trace db, Run (Steps apply Retains) (opened [] {}) trace db ∧
      db.ctx.freeList.entries.length = 1 :=
    exists_run [.set [97] [1, 2, 3], .set [98] [4], .erase [97], .set [99] [5, 6],
      .update [98] [7, 8]] (by decide) (by decide)
  obtain ⟨trace, db, hrun, hcount⟩ := hrun
  exact ⟨trace, db, hrun, hcount, (covered_run (open_new 0 [] {}) hrun).1⟩

/-- A shorter value goes to the end of the file, and the old extent belongs to nobody. -/
theorem not_covered_shrunk :
    ¬ ∀ trace db, Run (Steps apply fun _ _ => True) (opened [] {}) trace db →
      db.ledger.Covered := by
  intro hall
  have hrun : ∃ trace db, Run (Steps apply fun _ _ => True) (opened [] {}) trace db ∧
      db.im.dat.size = 4 ∧ db.ctx.freeList.entries = [] ∧
      db.ctx.index.entries = [⟨[97], ⟨3, 1, 3⟩⟩] :=
    exists_run [.set [97] [1, 2, 3], .update [97] [4]] (by decide) (by decide)
  obtain ⟨trace, db, hrun, hsize, hfree, hindex⟩ := hrun
  have hheld : 0 ∈ db.ledger.held := hall trace db hrun (show 0 < db.im.dat.size by omega)
  obtain ⟨k, e, he, hp⟩ | ⟨e, he, _⟩ := hheld
  · obtain ⟨data, hdata, rfl⟩ := Option.map_eq_some_iff.mp he
    have hmem := AList.mem_lookup_iff.mp hdata
    rw [hindex] at hmem
    cases List.mem_singleton.mp hmem
    exact absurd hp.1 (by decide)
  · change e ∈ db.ctx.freeList.entries.map freeExtent at he
    rw [hfree] at he
    cases he

end DB

end

end Ambry
