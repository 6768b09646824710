import Ambry.Foundation.Run
import Ambry.Lib.Ledger

/-!
# The database as a map

What a database is for: a map from keys to byte strings. Sound ledgers carry the
refinement, since a write into one extent leaves the bytes of every other live
extent alone. An update that grows in place is the one move that does not ask
the allocator; it keeps the ledger sound only when the bytes it grows into
belong to nobody.
-/

namespace Ambry

open Foundation

namespace DB

/-- Keys of at most 65535 bytes and values shorter than `2 ^ 32` bytes. -/
def Op.Bounded : Op → Prop
  | .set key value => key.length ≤ 65535 ∧ value.length < 2 ^ 32
  | .update key value => key.length ≤ 65535 ∧ value.length < 2 ^ 32
  | .erase key => key.length ≤ 65535

instance Op.Bounded.decidable : (op : Op) → Decidable op.Bounded
  | .set _ _ => inferInstanceAs (Decidable (_ ∧ _))
  | .update _ _ => inferInstanceAs (Decidable (_ ∧ _))
  | .erase _ => inferInstanceAs (Decidable (_ ≤ _))

/-- The operations on the map, with the results of the source. -/
def Op.onMap (m : Bytes → Option Bytes) : Op → Result × (Bytes → Option Bytes)
  | .set key value => match m key with
    | some _ => (⟨.KeyNotInserted, "Could not insert key into index"⟩, m)
    | none => (.success, Function.update m key (some value))
  | .update key value => match m key with
    | some _ => (.success, Function.update m key (some value))
    | none => (⟨.KeyNotFound, "key does not exist in index"⟩, m)
  | .erase key => match m key with
    | some _ => (.success, Function.update m key none)
    | none => (⟨.KeyNotFound, "key does not exist in index"⟩, m)

theorem Op.onMap_of_ne (op : Op) (m : Bytes → Option Bytes) {k : Bytes} (hk : k ≠ op.key) :
    (op.onMap m).2 k = m k := by
  cases op with
  | set key value =>
    rw [onMap]
    split
    · rfl
    · exact Function.update_of_ne hk _ _
  | update key value =>
    rw [onMap]
    split
    · exact Function.update_of_ne hk _ _
    · rfl
  | erase key =>
    rw [onMap]
    split
    · exact Function.update_of_ne hk _ _
    · rfl

/-- The value of the last successful `set` or `update` of `k` that no successful `erase` follows. -/
def lastWrite (k : Bytes) (trace : List (Op × Result)) : Option Bytes :=
  trace.foldl (fun v e =>
    if e.2.ok ∧ e.1.key = k then
      match e.1 with
      | .set _ value => some value
      | .update _ value => some value
      | .erase _ => none
    else v) none

theorem lastWrite_onMap {k : Bytes} {trace : List (Op × Result)} {m : Bytes → Option Bytes}
    (h : lastWrite k trace = m k) (op : Op) :
    lastWrite k (trace ++ [(op, (op.onMap m).1)]) = (op.onMap m).2 k := by
  rw [lastWrite] at h
  rw [lastWrite, List.foldl_append, h]
  by_cases hk : op.key = k
  · subst hk
    cases op with
    | set key value =>
      cases hm : m key <;> simp [Op.onMap, Op.key, hm, BasicResult.ok, Result.success]
    | update key value =>
      cases hm : m key <;> simp [Op.onMap, Op.key, hm, BasicResult.ok, Result.success]
    | erase key =>
      cases hm : m key <;> simp [Op.onMap, Op.key, hm, BasicResult.ok, Result.success]
  · rw [op.onMap_of_ne m (Ne.symm hk)]
    simp [hk]

variable {db db' : DB} {key value : Bytes} {r : Result}

theorem get_eq_none_iff (db : DB) (k : Bytes) :
    db.get k = none ↔ db.ctx.index.lookup k = none := by
  rw [get, Option.map_eq_none_iff]

theorem get_eq_some_of_lookup {data : IndexData} (h : db.ctx.index.lookup key = some data) :
    ∃ v, db.get key = some v :=
  ⟨_, congrArg (Option.map _) h⟩

theorem get_stored {data : IndexData} (hL : db.ledger.Inside) (hL' : db'.ledger.Sound)
    (hindex : db'.ctx.index = db.ctx.index.insert key data)
    (hdat : db'.im.dat.bytes = splice 0 db.im.dat.bytes data.offset.toNat (payload value))
    (hlength : data.length = UInt32.ofNat value.length)
    (hle : data.offset.toNat ≤ db.im.dat.size) (hvalue : value.length < 2 ^ 32) :
    db'.get = Function.update db.get key (some value) := by
  have hlive : db'.ledger.live = Function.update db.ledger.live key (some data.extent) := by
    rw [ledger, hindex, liveExtents_insert]
    rfl
  have hpayload : data.length.toNat = (payload value).length := by
    rw [hlength, payload_length]
  funext k
  rw [get_eq_window hL'.toInside, hlive, hdat]
  by_cases hk : k = key
  · subst hk
    rw [Function.update_self, Function.update_self, Option.map_some]
    simp only [IndexData.extent, hpayload]
    rw [window_splice_self hle, payload_eq hvalue]
  · rw [Function.update_of_ne hk, Function.update_of_ne hk, get_eq_window hL]
    cases hlk : db.ledger.live k with
    | none => rfl
    | some e =>
      have hk' : db'.ledger.live k = some e := by rw [hlive, Function.update_of_ne hk, hlk]
      have hkey : db'.ledger.live key = some data.extent := by rw [hlive, Function.update_self]
      have hapart := Extent.apart_iff.mp (hL'.live_live k key e _ hk hk' hkey)
      simp only [Option.map_some]
      rw [window_splice_apart hle]
      simpa only [Extent.stop, IndexData.extent, ← hpayload] using hapart

/-- The update of a live key by a longer value finds the bytes it grows into unowned: they
belong to no other live key and to no entry of the free list. -/
def GrowsIntoVacant (db : DB) : Op → Prop
  | .update key value => ∀ old, db.ctx.index.lookup key = some old →
      old.length.toNat < value.length →
      db.ledger.Vacant key ⟨old.offset.toNat, value.length⟩
  | _ => True

instance (db : DB) : (op : Op) → Decidable (GrowsIntoVacant db op)
  | .set _ _ => .isTrue trivial
  | .update key value => inferInstanceAs (Decidable (∀ old ∈ db.ctx.index.lookup key,
      old.length.toNat < value.length → db.ledger.Vacant key ⟨old.offset.toNat, value.length⟩))
  | .erase _ => .isTrue trivial

section
variable [Machine]

theorem set_refines (hL : db.ledger.Sound) (hvalue : value.length < 2 ^ 32)
    (h : db.set key value = some (r, db')) :
    db'.ledger.Sound ∧ (r, db'.get) = (Op.set key value).onMap db.get := by
  obtain ⟨⟨data, hk⟩, hr, hdb⟩ | ⟨hk, rfl, pos, hout⟩ := set_cases h
  · subst hr hdb
    refine ⟨hL, ?_⟩
    obtain ⟨v, hget⟩ := get_eq_some_of_lookup hk
    simp only [Op.onMap, hget]
  · have hclaims := hout.claims hL.toInside
    have hL' : db'.ledger.Sound := by
      rw [hout.ledger_eq hL.toInside]
      exact hclaims.sound hL rfl
    refine ⟨hL', ?_⟩
    rw [get_stored hL.toInside hL' hout.index hout.dat rfl (hclaims.offset_le hL.toInside) hvalue]
    simp only [Op.onMap, (get_eq_none_iff db key).mpr hk]

theorem update_refines (hL : db.ledger.Sound) (hvalue : value.length < 2 ^ 32)
    (hgrows : GrowsIntoVacant db (.update key value)) (h : db.update key value = some (r, db')) :
    db'.ledger.Sound ∧ (r, db'.get) = (Op.update key value).onMap db.get := by
  obtain ⟨hk, hr, hdb⟩ | ⟨old, hk, rfl, pos, hout⟩ := update_cases h
  · subst hr hdb
    exact ⟨hL, by simp only [Op.onMap, (get_eq_none_iff db' key).mpr hk]⟩
  · have hL' : db'.ledger.Sound := by
      rw [hout.ledger_eq hL.toInside hk]
      by_cases hgrow : old.length.toNat < value.length
      · obtain ⟨hland, hlist, _, _⟩ := hout.grown hL.toInside hk hgrow
        have hfree : db'.ledger.free = db.ledger.free := by simp only [ledger, hlist]
        have hlen : (UInt32.ofNat value.length).toNat = value.length := by
          rw [UInt32.toNat_ofNat', Nat.mod_eq_of_lt hvalue]
        rw [hland, hfree, hlen]
        exact hL.assign (Nat.le_max_left _ _) (Nat.le_max_right _ _) (hgrows old hk hgrow)
          (List.Subperm.refl _)
      · exact (hout.claims hL.toInside hgrow).sound hL rfl
    refine ⟨hL', ?_⟩
    rw [get_stored hL.toInside hL' hout.index hout.dat rfl (hout.offset_le hL.toInside hk) hvalue]
    obtain ⟨v, hget⟩ := get_eq_some_of_lookup hk
    simp only [Op.onMap, hget]

theorem erase_refines (hL : db.ledger.Sound) (h : db.erase key = some (r, db')) :
    db'.ledger.Sound ∧ (r, db'.get) = (Op.erase key).onMap db.get := by
  obtain ⟨hk, hr, hdb⟩ | ⟨old, hk, rfl, hout⟩ := erase_cases h
  · subst hr hdb
    exact ⟨hL, by simp only [Op.onMap, (get_eq_none_iff db' key).mpr hk]⟩
  · obtain ⟨hledger, hperm⟩ := hout.ledger_eq
    have hL' : db'.ledger.Sound := by
      rw [hledger]
      exact hL.release (congrArg (Option.map IndexData.extent) hk) hperm.subperm
    refine ⟨hL', ?_⟩
    have hlive : db'.ledger.live = Function.update db.ledger.live key none :=
      congrArg Ledger.live hledger
    have hget' : db'.get = Function.update db.get key none := by
      funext k
      rw [get_eq_window hL'.toInside, hlive, hout.dat]
      by_cases hne : k = key
      · rw [hne, Function.update_self, Function.update_self, Option.map_none]
      · rw [Function.update_of_ne hne, Function.update_of_ne hne, get_eq_window hL.toInside]
    rw [hget']
    obtain ⟨v, hget⟩ := get_eq_some_of_lookup hk
    simp only [Op.onMap, hget]

theorem apply_refines {op : Op} (hL : db.ledger.Sound) (hbounded : op.Bounded)
    (hgrows : GrowsIntoVacant db op) (h : db.apply op = some (r, db')) :
    db'.ledger.Sound ∧ (r, db'.get) = op.onMap db.get := by
  cases op with
  | set key value => exact set_refines hL hbounded.2 h
  | update key value => exact update_refines hL hbounded.2 hgrows h
  | erase key => exact erase_refines hL h

/-- A run of bounded operations that grow only into unowned bytes: the map is what `get` reads. -/
theorem get_eq_lastWrite {indet : UInt8} {name : Bytes} {options : Options} {db₀ db : DB}
    {trace : List (Op × Result)} (hopen : (new name options).open indet = some (r, db₀))
    (hrun : Run (Steps apply fun db op => op.Bounded ∧ GrowsIntoVacant db op) db₀ trace db) :
    (∀ k, db.get k = lastWrite k trace) ∧
      ∀ op r db', op.Bounded → GrowsIntoVacant db op → db.apply op = some (r, db') →
        ∀ k, k ≠ op.key → db'.get k = db.get k := by
  rw [open_new] at hopen
  cases hopen
  have hinv : db.ledger.Sound ∧ ∀ k, db.get k = lastWrite k trace := by
    refine hrun.history (I := fun trace db => db.ledger.Sound ∧ ∀ k, db.get k = lastWrite k trace)
      ⟨opened_sound name options, fun _ => rfl⟩ ?_
    rintro trace db ⟨op, r⟩ db' ⟨hL, hget⟩ ⟨⟨hbounded, hgrows⟩, happly⟩
    obtain ⟨hL', heq⟩ := apply_refines hL hbounded hgrows happly
    have hr : r = (op.onMap db.get).1 := congrArg Prod.fst heq
    have hget' : db'.get = (op.onMap db.get).2 := congrArg Prod.snd heq
    refine ⟨hL', fun k => ?_⟩
    rw [hr, lastWrite_onMap (hget k).symm, hget']
  refine ⟨hinv.2, fun op r db' hbounded hgrows happly k hne => ?_⟩
  have heq := congrArg (fun p => p.2 k) (apply_refines hinv.1 hbounded hgrows happly).2
  exact heq.trans (op.onMap_of_ne db.get hne)

end

section
attribute [local instance] littleEndian

/-- Two keys, of which the first grows at the end of the file before the second is stored. -/
theorem get_eq_lastWrite_grown :
    ∃ trace db, Run (Steps apply fun db op => op.Bounded ∧ GrowsIntoVacant db op)
        (opened [] {}) trace db ∧
      db.get [97] = lastWrite [97] trace ∧ lastWrite [97] trace = some [120, 121] := by
  have hrun : ∃ trace db, Run (Steps apply fun db op => op.Bounded ∧ GrowsIntoVacant db op)
      (opened [] {}) trace db ∧ lastWrite [97] trace = some [120, 121] :=
    exists_run [.set [97] [119], .update [97] [120, 121], .set [98] [122]] (by decide) (by decide)
  obtain ⟨trace, db, hrun, hlast⟩ := hrun
  exact ⟨trace, db, hrun, (get_eq_lastWrite (open_new 0 [] {}) hrun).1 [97], hlast⟩

/-- Two values are stored next to each other; the first grows over the second. -/
theorem get_ne_lastWrite_overgrown :
    ∃ trace db, Run (Steps apply fun _ op => op.Bounded) (opened [] {}) trace db ∧
      db.get [98] = some [122] ∧ lastWrite [98] trace = some [121] :=
  exists_run [.set [97] [120], .set [98] [121], .update [97] [122, 122]] (by decide) (by decide)

end

end DB

end Ambry
