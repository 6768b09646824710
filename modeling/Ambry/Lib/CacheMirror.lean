import Ambry.Foundation.Run
import Ambry.Lib.Ledger

/-!
# The cache mirrors the data file

With the cache on, the vector holds the bytes of the data file, and what `get`
reads from the file `getCached` finds in the vector. Setting a value keeps the
mirror: an append goes to the end of both, a recycled extent lies inside both.
Updating keeps it only where the bytes of the value lie inside the file already,
since `Cache::write_at` does not extend the vector.
-/

namespace Ambry

open Foundation

namespace DB

structure Mirror (db : DB) : Prop where
  enabled : db.ctx.options.enableCache = true
  data : db.ctx.data = db.im.dat.bytes
  inVector : db.ctx.stray = false
  inside : db.ledger.Inside

/-- The update of a live key has a value shorter than `2 ^ 32` bytes and does not reach past the
end of the data file: a longer value fits behind the old offset, any other value is empty or
finds a longer free extent. -/
def StaysInside (db : DB) : Op → Prop
  | .update key value => ∀ old ∈ db.ctx.index.lookup key, value.length < 2 ^ 32 ∧
      if old.length.toNat < value.length then old.offset.toNat + value.length ≤ db.im.dat.size
      else value = [] ∨ ∃ entry ∈ db.ctx.freeList.entries, value.length < entry.1.toNat
  | _ => True

instance (db : DB) : (op : Op) → Decidable (StaysInside db op)
  | .set _ _ => .isTrue trivial
  | .update key value => inferInstanceAs (Decidable (∀ old ∈ db.ctx.index.lookup key,
      value.length < 2 ^ 32 ∧
      if old.length.toNat < value.length then old.offset.toNat + value.length ≤ db.im.dat.size
      else value = [] ∨ ∃ entry ∈ db.ctx.freeList.entries, value.length < entry.1.toNat))
  | .erase _ => .isTrue trivial

section
variable [Machine] {db db' : DB} {key value : Bytes} {r : Result}

omit [Machine] in
theorem Mirror.of_splice (hM : db.Mirror) {off : Nat} {bs : Bytes}
    (hoptions : db'.ctx.options = db.ctx.options)
    (hdata : db'.ctx.data = Cache.store db.ctx.data off bs)
    (hstray : db'.ctx.stray = (db.ctx.stray || Cache.outside db.ctx.data off bs))
    (hdat : db'.im.dat.bytes = splice 0 db.im.dat.bytes off bs)
    (hstop : bs = [] ∨ off + bs.length ≤ db.im.dat.size) (hinside : db'.ledger.Inside) :
    db'.Mirror := by
  rw [File.size, ← hM.data] at hstop
  refine ⟨hoptions ▸ hM.enabled, ?_, ?_, hinside⟩
  · rw [hdata, hdat, ← hM.data]
    obtain rfl | hstop := hstop
    · rfl
    · exact Cache.store_eq_splice hstop
  · rw [hstray, hM.inVector, Cache.outside_eq_false.mpr hstop]
    rfl

theorem Mirror.set (hM : db.Mirror) (h : db.set key value = some (r, db')) : db'.Mirror := by
  obtain ⟨_, _, hdb⟩ | ⟨_, _, pos, hout⟩ := set_cases h
  · exact hdb ▸ hM
  have hinside := inside_set hM.inside h
  have hcache := hout.cache
  rw [if_pos hM.enabled] at hcache
  obtain ⟨hdata, hstray⟩ := Prod.mk.inj hcache
  have hdat := hout.dat
  obtain ⟨rfl, _⟩ | ⟨hpos, hstop, _⟩ := hout.allocated.inside db.size_le hM.inside.free_le
  · rw [Cache.write, if_pos rfl] at hdata hstray
    refine ⟨hout.options ▸ hM.enabled, ?_, hstray.trans hM.inVector, hinside⟩
    rw [hdata, hdat, landing_npos db.size_le, File.size, splice_end, ← hM.data]
    rfl
  · rw [Cache.write, if_neg hpos] at hdata hstray
    rw [landing, if_neg hpos] at hdat
    have hpayload : (payload value).length ≤ value.length := by
      rw [payload, List.length_take]
      exact Nat.min_le_right _ _
    have hfits := (Nat.add_le_add_left hpayload pos.toNat).trans hstop.le
    exact hM.of_splice hout.options hdata hstray hdat (.inr hfits) hinside

theorem Mirror.update (hM : db.Mirror) (hstays : StaysInside db (.update key value))
    (h : db.update key value = some (r, db')) : db'.Mirror := by
  have hinside := inside_update hM.inside h
  obtain ⟨_, _, hdb⟩ | ⟨old, hold, _, pos, hout⟩ := update_cases h
  · exact hdb ▸ hM
  obtain ⟨hvalue, hstays⟩ := hstays old hold
  have hcache := hout.cache
  rw [if_pos hM.enabled] at hcache
  obtain ⟨hdata, hstray⟩ := Prod.mk.inj hcache
  have hdat := hout.dat
  rw [payload_eq hvalue] at hdat
  by_cases hgrow : old.length.toNat < value.length
  · obtain ⟨hland, _⟩ := hout.grown hM.inside hold hgrow
    rw [if_pos hgrow] at hstays
    refine hM.of_splice hout.options hdata hstray hdat (.inr ?_) hinside
    rw [hland]
    exact hstays
  · have halloc := hout.allocated
    rw [if_neg hgrow] at halloc hstays
    refine hM.of_splice hout.options hdata hstray hdat ?_ hinside
    obtain ⟨_, hnone⟩ | ⟨hpos, hstop, _⟩ := halloc.inside db.size_le hM.inside.free_le
    · obtain hnil | ⟨entry, hmem, hlt⟩ := hstays
      · exact .inl hnil
      · exact absurd hlt (hnone entry hmem)
    · right
      rw [landing, if_neg hpos]
      exact hstop.le

theorem Mirror.erase (hM : db.Mirror) (h : db.erase key = some (r, db')) : db'.Mirror := by
  obtain ⟨_, _, hdb⟩ | ⟨old, hold, _, hout⟩ := erase_cases h
  · exact hdb ▸ hM
  refine ⟨hout.options ▸ hM.enabled, ?_, hout.stray ▸ hM.inVector, inside_erase hM.inside h⟩
  rw [hout.data, hout.dat, hM.data]

theorem Mirror.apply {op : Op} (hM : db.Mirror) (hstays : StaysInside db op)
    (h : db.apply op = some (r, db')) : db'.Mirror := by
  cases op with
  | set key value => exact hM.set h
  | update key value => exact hM.update hstays h
  | erase key => exact hM.erase h

/-- For values shorter than `2 ^ 32` bytes the condition is exact: an update that does not stay
inside stores outside the vector. -/
theorem update_stray_iff (hM : db.Mirror) (hvalue : value.length < 2 ^ 32)
    (h : db.update key value = some (r, db')) :
    db'.ctx.stray = false ↔ StaysInside db (.update key value) := by
  refine ⟨fun hin old hold => ⟨hvalue, ?_⟩, fun hstays => (hM.update hstays h).inVector⟩
  obtain ⟨hk, _, _⟩ | ⟨old', hold', _, pos, hout⟩ := update_cases h
  · exact absurd (hk.symm.trans hold) (by simp)
  obtain rfl : old' = old := Option.some.inj (hold'.symm.trans hold)
  have hcache := hout.cache
  rw [if_pos hM.enabled] at hcache
  have hstray : db'.ctx.stray = (db.ctx.stray ||
    Cache.outside db.ctx.data (landing db.im.dat.size pos).toNat value) := (Prod.mk.inj hcache).2
  rw [hin, hM.inVector, Bool.false_or, hM.data] at hstray
  have hfits := Cache.outside_eq_false.mp hstray.symm
  by_cases hgrow : old'.length.toNat < value.length
  · obtain ⟨hland, _⟩ := hout.grown hM.inside hold' hgrow
    rw [if_pos hgrow]
    obtain rfl | hfits := hfits
    · exact absurd hgrow (Nat.not_lt_zero _)
    · exact hland ▸ hfits
  · have halloc := hout.allocated
    rw [if_neg hgrow] at halloc ⊢
    obtain ⟨rfl, _⟩ | ⟨_, _, hlonger⟩ := halloc.inside db.size_le hM.inside.free_le
    · rw [landing_npos db.size_le, File.size] at hfits
      exact .inl (hfits.elim id fun hle => List.length_eq_zero_iff.mp (by omega))
    · exact .inr hlonger

omit [Machine] in
theorem Mirror.getCached_eq (hM : db.Mirror) (k : Bytes) : db.getCached k = db.get k := by
  rw [get_eq_window hM.inside, getCached, hM.data]
  simp only [ledger, liveExtents, Option.map_map]
  rfl

theorem mirror_of_open {indet : UInt8} {name : Bytes} {im : IoManager}
    (h : (onFiles name { enableCache := true } im).open indet = some (r, db))
    (hwell : db.ledger.Inside) : db.Mirror := by
  obtain ⟨_, hout⟩ := open_cases h
  exact ⟨hout.options ▸ rfl, hout.data.trans hout.dat.symm, hout.stray, hwell⟩

/-- A run on a database opened with the cache on, whose loaded extents lie inside its data file. -/
theorem getCached_eq_get {indet : UInt8} {name : Bytes} {im : IoManager} {db₀ db : DB}
    {trace : List (Op × Result)}
    (hopen : (onFiles name { enableCache := true } im).open indet = some (r, db₀))
    (hwell : db₀.ledger.Inside) (hrun : Run (Steps apply StaysInside) db₀ trace db) :
    (∀ k data, db.ctx.index.lookup k = some data →
      data.offset.toNat + data.length.toNat ≤ db.ctx.data.length) ∧
    (∀ k, db.getCached k = db.get k) ∧ db.ctx.stray = false := by
  have hM : db.Mirror := by
    apply hrun.invariant (mirror_of_open hopen hwell)
    rintro s ⟨op, r⟩ s' hM ⟨hstays, happly⟩
    exact hM.apply hstays happly
  refine ⟨fun k data hk => ?_, hM.getCached_eq, hM.inVector⟩
  rw [hM.data]
  exact hM.inside.live_le k _ (congrArg (Option.map IndexData.extent) hk)

end

section
attribute [local instance] littleEndian

theorem getCached_eq_get_recycled :
    ∃ trace db, Run (Steps apply StaysInside) (opened [] {}) trace db ∧
      (∀ k, db.getCached k = db.get k) ∧ db.get [98] = some [122] := by
  have hrun : ∃ trace db, Run (Steps apply StaysInside) (opened [] {}) trace db ∧
      db.get [98] = some [122] :=
    exists_run [.set [97] [1, 2, 3, 4], .set [98] [5, 6], .erase [97], .update [98] [122]]
      (by decide) (by decide)
  obtain ⟨trace, db, hrun, hget⟩ := hrun
  have hopen : (onFiles [] { enableCache := true } ⟨.empty, .empty, .empty⟩).open 0 =
      some (.success, opened [] {}) := open_new 0 [] {}
  exact ⟨trace, db, hrun, (getCached_eq_get hopen (opened_sound [] {}).toInside hrun).2.1, hget⟩

/-- The longer value is stored past the end of the vector, which does not hold its extent. -/
theorem getCached_ne_get_grown :
    ∃ trace db, Run (Steps apply fun _ _ => True) (opened [] {}) trace db ∧ db.ctx.stray = true ∧
      ∃ data ∈ db.ctx.index.lookup [97],
        db.ctx.data.length < data.offset.toNat + data.length.toNat :=
  exists_run [.set [97] [120], .update [97] [120, 121]] (by decide) (by decide)

end

end DB

end Ambry
