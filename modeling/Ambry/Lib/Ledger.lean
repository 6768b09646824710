import Ambry.Foundation.Extent
import Ambry.Lib.Opening
import Ambry.Lib.Outcome

/-!
# The ledger of a database

The index and the in-memory free list, read as a ledger of extents of the data
file. An operation moves the ledger by assigning or releasing one extent, and
every move but an in-place growth keeps it sound.
-/

namespace Ambry

open Foundation Foundation.Extent

def IndexData.extent (data : IndexData) : Extent := ⟨data.offset.toNat, data.length.toNat⟩

def freeExtent (entry : UInt32 × FreeEntry) : Extent := ⟨entry.2.offset.toNat, entry.1.toNat⟩

def extents (l : FreeList) : List Extent := l.entries.map freeExtent

def liveExtents (index : Index) (key : Bytes) : Option Extent :=
  (index.lookup key).map IndexData.extent

def DB.ledger (db : DB) : Ledger Bytes where
  live := liveExtents db.ctx.index
  free := extents db.ctx.freeList
  limit := db.im.dat.size

theorem liveExtents_insert (index : Index) (key : Bytes) (data : IndexData) :
    liveExtents (index.insert key data) =
      Function.update (liveExtents index) key (some data.extent) := by
  funext k
  by_cases hk : k = key
  · subst hk
    simp [liveExtents]
  · simp [liveExtents, hk]

theorem liveExtents_erase (index : Index) (key : Bytes) :
    liveExtents (index.erase key) = Function.update (liveExtents index) key none := by
  funext k
  by_cases hk : k = key
  · subst hk
    simp [liveExtents]
  · simp [liveExtents, hk]

theorem DB.vacant_iff {db : DB} {key : Bytes} {e : Extent} :
    db.ledger.Vacant key e ↔
      (∀ entry ∈ db.ctx.index.entries, entry.1 ≠ key → Apart e entry.2.extent) ∧
        ∀ f ∈ extents db.ctx.freeList, Apart e f := by
  constructor
  · intro h
    refine ⟨fun entry hmem hne => h.live_apart entry.1 _ hne ?_, h.free_apart⟩
    exact congrArg (Option.map IndexData.extent) (AList.mem_lookup_iff.mpr hmem)
  · rintro ⟨hlive, hfree⟩
    refine ⟨fun l f hne hf => ?_, hfree⟩
    obtain ⟨data, hdata, rfl⟩ := Option.map_eq_some_iff.mp hf
    exact hlive ⟨l, data⟩ (AList.mem_lookup_iff.mp hdata) hne

instance (db : DB) (key : Bytes) (e : Extent) : Decidable (db.ledger.Vacant key e) :=
  decidable_of_iff _ DB.vacant_iff.symm

theorem payload_length (value : Bytes) :
    (payload value).length = (UInt32.ofNat value.length).toNat := by
  rw [payload, List.length_take, UInt32.toNat_ofNat']
  exact Nat.min_eq_left (Nat.mod_le _ _)

theorem payload_eq {value : Bytes} (h : value.length < 2 ^ 32) : payload value = value := by
  rw [payload, UInt32.toNat_ofNat', Nat.mod_eq_of_lt h, List.take_length]

theorem landing_of_le {size : Nat} {pos : UInt64} (h : pos.toNat ≤ OFF_MAX) :
    landing size pos = pos := by
  rw [landing, if_neg]
  rintro rfl
  exact absurd h (by decide)

theorem landing_npos {size : Nat} (h : size ≤ OFF_MAX) : (landing size npos).toNat = size := by
  rw [landing, if_pos rfl, UInt64.toNat_ofNat', Nat.mod_eq_of_lt]
  exact Nat.lt_of_le_of_lt h (by decide)

section
variable [Machine] {l l' : FreeList} {file file' : Bytes} {n size : Nat} {pos : UInt64}

theorem Allocated.place (h : Allocated l file n pos l' file') :
    (∃ entry, RW.firstLonger l n = some entry ∧ pos = entry.2.offset) ∨
      (RW.firstLonger l n = none ∧ pos = npos) := by
  cases h with
  | recycled entry hfind => exact .inl ⟨entry, hfind, rfl⟩
  | atEnd hfind => exact .inr ⟨hfind, rfl⟩

/-- An allocation appends when no free extent is longer, and else stays inside the file. -/
theorem Allocated.inside (h : Allocated l file n pos l' file') (hsize : size ≤ OFF_MAX)
    (hinside : ∀ e ∈ extents l, e.stop ≤ size) :
    (pos = npos ∧ ∀ entry ∈ l.entries, ¬ n < entry.1.toNat) ∨
      (pos ≠ npos ∧ pos.toNat + n < size ∧ ∃ entry ∈ l.entries, n < entry.1.toNat) := by
  cases h with
  | atEnd hfind =>
    refine .inl ⟨rfl, fun entry hmem => ?_⟩
    simpa using List.find?_eq_none.mp hfind entry hmem
  | recycled entry hfind =>
    have hlt := firstLonger_lt hfind
    have hmem := firstLonger_mem hfind
    have hstop : entry.2.offset.toNat + entry.1.toNat ≤ size :=
      hinside _ (List.mem_map.mpr ⟨entry, hmem, rfl⟩)
    refine .inr ⟨?_, by omega, entry, hmem, hlt⟩
    rintro hpos
    have hnpos : npos.toNat ≤ OFF_MAX := by rw [← hpos]; omega
    exact absurd hnpos (by decide)

omit [Machine] in
theorem rest_toNat {entry : UInt32 × FreeEntry} (hlt : n < entry.1.toNat)
    (hstop : entry.2.offset.toNat + entry.1.toNat ≤ OFF_MAX) :
    (restOffset entry n).toNat = entry.2.offset.toNat + n ∧
      (restLength entry n).toNat = entry.1.toNat - n := by
  have hmax : OFF_MAX < 2 ^ 64 := by decide
  have hbound := entry.1.toNat_lt
  constructor
  · rw [restOffset, UInt64.toNat_add, UInt64.toNat_ofNat', Nat.mod_eq_of_lt (a := n) (by omega),
      Nat.mod_eq_of_lt (by omega)]
  · rw [restLength, UInt32.toNat_ofNat', Nat.mod_eq_of_lt (by omega)]

theorem Allocated.claims (h : Allocated l file n pos l' file') (hsize : size ≤ OFF_MAX)
    (hinside : ∀ e ∈ extents l, e.stop ≤ size) :
    Ledger.Claims (extents l) (extents l') size n
      ⟨(landing size pos).toNat, (UInt32.ofNat n).toNat⟩ := by
  cases h with
  | atEnd hfind =>
    exact .back rfl (landing_npos hsize)
  | recycled entry hfind =>
    have hlt := firstLonger_lt hfind
    have hmem := firstLonger_mem hfind
    have hbound := entry.1.toNat_lt
    have hstop : entry.2.offset.toNat + entry.1.toNat ≤ size :=
      hinside _ (List.mem_map.mpr ⟨entry, hmem, rfl⟩)
    obtain ⟨rest, hperm, hsub⟩ := Multimap.erase_subperm hmem
    obtain ⟨hoffset, hlength⟩ := rest_toNat hlt (hstop.trans hsize)
    have hlen : (UInt32.ofNat n).toNat = n := by
      rw [UInt32.toNat_ofNat', Nat.mod_eq_of_lt (by omega)]
    refine .front (freeExtent entry) (rest.map freeExtent) hlt (hperm.map _) ?_ ?_
    · rw [extents]
      apply ((Multimap.emplace_perm _ _ _).map _).subperm.trans
      rw [List.map_cons, freeExtent, hoffset, hlength]
      obtain ⟨m, hm, hs⟩ := hsub
      exact (List.subperm_cons _).mpr ⟨m.map freeExtent, hm.map _, hs.map _⟩
    · rw [landing_of_le (by omega), hlen]
      rfl

end

namespace DB

variable {db db' : DB} {key value : Bytes}

theorem size_le (db : DB) : db.im.dat.size ≤ OFF_MAX := db.im.dat.size_le

theorem ledger_assign {data : IndexData} (hindex : db'.ctx.index = db.ctx.index.insert key data)
    (hdat : db'.im.dat.bytes = splice 0 db.im.dat.bytes data.offset.toNat (payload value))
    (hlength : data.length = UInt32.ofNat value.length)
    (hle : data.offset.toNat ≤ db.im.dat.size) :
    db'.ledger = db.ledger.assign key data.extent (extents db'.ctx.freeList)
      (max db.ledger.limit data.extent.stop) := by
  have hsize : db'.im.dat.size = max db.im.dat.size (data.offset.toNat + data.length.toNat) := by
    rw [File.size, hdat, splice_length hle, payload_length, hlength]
    rfl
  rw [ledger, Ledger.assign, hindex, liveExtents_insert, hsize]
  rfl

theorem get_eq_window (hL : db.ledger.Inside) (k : Bytes) :
    db.get k = (db.ledger.live k).map fun e => window db.im.dat.bytes e.offset e.length := by
  simp only [get, ledger, liveExtents, Option.map_map]
  cases hk : db.ctx.index.lookup k with
  | none => rfl
  | some data =>
    have hstop : data.extent.stop ≤ db.im.dat.size :=
      hL.live_le k _ (congrArg (Option.map IndexData.extent) hk)
    have hlen : (db.im.dat.pread data.length.toNat data.offset.toNat).length =
        data.length.toNat := window_length hstop
    simp only [Option.map_some, IoManager.readDat, hlen, Nat.sub_self, List.replicate_zero,
      List.append_nil]
    rfl

variable [Machine] {pos : UInt64}

theorem opened_sound (name : Bytes) (options : Options) : (opened name options).ledger.Sound where
  live_le k e h := by cases h
  free_le e h := by cases h
  live_live k l e f _ h := by cases h
  live_free k e f h := by cases h
  free_free := .nil

theorem SetOutcome.claims (h : SetOutcome db key value pos db') (hL : db.ledger.Inside) :
    Ledger.Claims db.ledger.free db'.ledger.free db.ledger.limit value.length
      ⟨(landing db.im.dat.size pos).toNat, (UInt32.ofNat value.length).toNat⟩ :=
  h.allocated.claims db.size_le hL.free_le

theorem SetOutcome.ledger_eq (h : SetOutcome db key value pos db') (hL : db.ledger.Inside) :
    db'.ledger = db.ledger.assign key
      ⟨(landing db.im.dat.size pos).toNat, (UInt32.ofNat value.length).toNat⟩ db'.ledger.free
      (max db.ledger.limit
        ((landing db.im.dat.size pos).toNat + (UInt32.ofNat value.length).toNat)) :=
  ledger_assign h.index h.dat rfl ((h.claims hL).offset_le hL)

theorem UpdateOutcome.claims {old : IndexData} (h : UpdateOutcome db key value old pos db')
    (hL : db.ledger.Inside) (hfits : ¬ old.length.toNat < value.length) :
    Ledger.Claims db.ledger.free db'.ledger.free db.ledger.limit value.length
      ⟨(landing db.im.dat.size pos).toNat, (UInt32.ofNat value.length).toNat⟩ := by
  have halloc := h.allocated
  rw [if_neg hfits] at halloc
  exact halloc.claims db.size_le hL.free_le

theorem UpdateOutcome.grown {old : IndexData} (h : UpdateOutcome db key value old pos db')
    (hL : db.ledger.Inside) (hold : db.ctx.index.lookup key = some old)
    (hgrow : old.length.toNat < value.length) :
    landing db.im.dat.size pos = old.offset ∧ db'.ctx.freeList = db.ctx.freeList ∧
      db'.im.free.bytes = db.im.free.bytes ∧ old.extent.stop ≤ db.im.dat.size := by
  have halloc := h.allocated
  rw [if_pos hgrow] at halloc
  obtain ⟨rfl, hlist, hfile⟩ := halloc
  have hstop : old.extent.stop ≤ db.im.dat.size :=
    hL.live_le key _ (congrArg (Option.map IndexData.extent) hold)
  refine ⟨landing_of_le ?_, hlist, hfile, hstop⟩
  exact ((Nat.le_add_right _ _).trans hstop).trans db.size_le

theorem UpdateOutcome.offset_le {old : IndexData} (h : UpdateOutcome db key value old pos db')
    (hL : db.ledger.Inside) (hold : db.ctx.index.lookup key = some old) :
    (landing db.im.dat.size pos).toNat ≤ db.im.dat.size := by
  by_cases hgrow : old.length.toNat < value.length
  · obtain ⟨heq, _, _, hstop⟩ := h.grown hL hold hgrow
    rw [heq]
    exact (Nat.le_add_right _ _).trans hstop
  · exact (h.claims hL hgrow).offset_le hL

theorem UpdateOutcome.ledger_eq {old : IndexData} (h : UpdateOutcome db key value old pos db')
    (hL : db.ledger.Inside) (hold : db.ctx.index.lookup key = some old) :
    db'.ledger = db.ledger.assign key
      ⟨(landing db.im.dat.size pos).toNat, (UInt32.ofNat value.length).toNat⟩ db'.ledger.free
      (max db.ledger.limit
        ((landing db.im.dat.size pos).toNat + (UInt32.ofNat value.length).toNat)) :=
  ledger_assign h.index h.dat rfl (h.offset_le hL hold)

theorem EraseOutcome.ledger_eq {old : IndexData} (h : EraseOutcome db key old db') :
    db'.ledger = db.ledger.release key db'.ledger.free ∧
      db'.ledger.free.Perm (old.extent :: db.ledger.free) := by
  constructor
  · rw [ledger, Ledger.release, h.index, liveExtents_erase, h.dat]
    rfl
  · simp only [ledger, extents, h.freeList]
    exact (Multimap.emplace_perm _ _ _).map freeExtent

theorem inside_set {r : Result} (hL : db.ledger.Inside) (h : db.set key value = some (r, db')) :
    db'.ledger.Inside := by
  obtain ⟨_, _, hdb⟩ | ⟨_, _, pos, hout⟩ := set_cases h
  · exact hdb ▸ hL
  · rw [hout.ledger_eq hL]
    exact (hout.claims hL).inside hL rfl

theorem inside_update {r : Result} (hL : db.ledger.Inside)
    (h : db.update key value = some (r, db')) : db'.ledger.Inside := by
  obtain ⟨_, _, hdb⟩ | ⟨old, hold, _, pos, hout⟩ := update_cases h
  · exact hdb ▸ hL
  · rw [hout.ledger_eq hL hold]
    by_cases hgrow : old.length.toNat < value.length
    · obtain ⟨_, hlist, _, _⟩ := hout.grown hL hold hgrow
      refine hL.assign (Nat.le_max_left _ _) (Nat.le_max_right _ _) fun f hf => ?_
      have hfree : db'.ledger.free = db.ledger.free := congrArg extents hlist
      exact (hL.free_le f (hfree ▸ hf)).trans (Nat.le_max_left _ _)
    · exact (hout.claims hL hgrow).inside hL rfl

theorem inside_erase {r : Result} (hL : db.ledger.Inside) (h : db.erase key = some (r, db')) :
    db'.ledger.Inside := by
  obtain ⟨_, _, hdb⟩ | ⟨old, hold, _, hout⟩ := erase_cases h
  · exact hdb ▸ hL
  · obtain ⟨hledger, hperm⟩ := hout.ledger_eq
    rw [hledger]
    refine hL.release key fun f hf => ?_
    obtain rfl | hf := List.mem_cons.mp (hperm.mem_iff.mp hf)
    · exact hL.live_le key _ (congrArg (Option.map IndexData.extent) hold)
    · exact hL.free_le f hf

theorem inside_apply {r : Result} {op : Op} (hL : db.ledger.Inside)
    (h : db.apply op = some (r, db')) : db'.ledger.Inside := by
  cases op with
  | set key value => exact inside_set hL h
  | update key value => exact inside_update hL h
  | erase key => exact inside_erase hL h

end DB

end Ambry
