import Ambry.Lib.FreeFile
import Ambry.Lib.IndexPersistence
import Ambry.Lib.Ledger

/-!
# Extents across reopening

Without updates, the index and the free-list file together are a sound ledger of
the data file: the file may hold extents that the free list in memory has lost,
never the other way round for an entry of positive length. So reopening, which
takes the free list from the file, is safe at any point.
-/

namespace Ambry

open Foundation Foundation.Extent

def slotExtent (s : Slot) : Extent := ⟨s.1.toNat, s.2.toNat⟩

namespace DB

def fileLedger (db : DB) (slots : List Slot) : Ledger Bytes :=
  { db.ledger with free := slots.map slotExtent }

inductive Action
  | set (key value : Bytes)
  | erase (key : Bytes)
  | reopen (indet : UInt8)

def Action.Bounded : Action → Prop
  | .set key value => key.length ≤ 65535 ∧ value.length < 2 ^ 32
  | .erase key => key.length ≤ 65535
  | .reopen _ => True

instance Action.Bounded.decidable : (action : Action) → Decidable action.Bounded
  | .set _ _ => inferInstanceAs (Decidable (_ ∧ _))
  | .erase _ => inferInstanceAs (Decidable (_ ≤ _))
  | .reopen _ => .isTrue trivial

def Small (db : DB) : Prop := db.im.idx.size < 2 ^ 31 ∧ db.im.free.size < 2 ^ 31

instance : DecidablePred Small := fun _ => inferInstanceAs (Decidable (_ ∧ _))

section
variable [Machine] {db db' : DB} {slots : List Slot} {key value : Bytes} {r : Result}

def act (db : DB) : Action → Option (Result × DB)
  | .set key value => db.set key value
  | .erase key => db.erase key
  | .reopen indet => db.close.open indet

structure Safe (db : DB) (slots : List Slot) : Prop where
  file_eq : db.im.free.bytes = freeFile slots
  sound : (db.fileLedger slots).Sound
  recorded : RecordedIn db.ctx.freeList slots
  inside : db.ledger.Inside

omit [Machine] in
theorem fileLedger_assign {extent : Extent} {free : List Extent} {limit : Nat} {slots' : List Slot}
    (h : db'.ledger = db.ledger.assign key extent free limit) :
    db'.fileLedger slots' =
      (db.fileLedger slots).assign key extent (slots'.map slotExtent) limit := by
  rw [fileLedger, h]
  rfl

omit [Machine] in
theorem sound_recycled {L : Ledger Bytes} {pre post : List Slot} {entry : UInt32 × FreeEntry}
    {n : Nat} (hL : L.Sound)
    (hfree : L.free = (pre ++ (entry.2.offset, entry.1) :: post).map slotExtent)
    (hlt : n < entry.1.toNat) (hlimit : L.limit ≤ OFF_MAX) :
    (L.assign key ⟨entry.2.offset.toNat, n⟩
      ((pre ++ (0, 0) :: post ++ [(restOffset entry n, restLength entry n)]).map slotExtent)
      L.limit).Sound := by
  have hperm : L.free.Perm (freeExtent entry :: (pre ++ post).map slotExtent) := by
    rw [hfree, List.map_append, List.map_append, List.map_cons]
    exact List.perm_middle
  have hstop : entry.2.offset.toNat + entry.1.toNat ≤ L.limit :=
    hL.free_le _ (hperm.mem_iff.mpr List.mem_cons_self)
  obtain ⟨hoffset, hlength⟩ := rest_toNat hlt (hstop.trans hlimit)
  have hsplit := hL.recycle (k := key) hlt.le hperm (List.Subperm.refl _)
  have hcleared := hsplit.cons_empty (e := slotExtent (0, 0)) rfl (Nat.zero_le _)
  refine hcleared.forget (List.Perm.subperm ?_)
  have hrest : slotExtent (restOffset entry n, restLength entry n) =
      ⟨entry.2.offset.toNat + n, entry.1.toNat - n⟩ := by
    rw [slotExtent, hoffset, hlength]
  rw [List.map_append, List.map_append, List.map_cons, List.map_singleton, hrest]
  apply List.perm_append_comm.trans
  apply (List.perm_middle.cons _).trans
  rw [List.map_append]
  exact List.Perm.swap _ _ _

theorem Safe.set (hS : db.Safe slots) (hsize : db.im.free.size < 2 ^ 31)
    (hvalue : value.length < 2 ^ 32) (h : db.set key value = some (r, db')) :
    ∃ slots', db'.Safe slots' := by
  have hinside := inside_set hS.inside h
  obtain ⟨_, _, hdb⟩ | ⟨_, _, pos, hout⟩ := set_cases h
  · exact ⟨slots, hdb ▸ hS⟩
  have hlen : (UInt32.ofNat value.length).toNat = value.length := by
    rw [UInt32.toNat_ofNat', Nat.mod_eq_of_lt hvalue]
  have hledger := hout.ledger_eq hS.inside
  rw [hlen] at hledger
  have halloc := hout.allocated
  rw [hS.file_eq] at halloc
  rw [File.size, hS.file_eq] at hsize
  obtain ⟨hpos, hlist, hfile⟩ | ⟨entry, pre, post, hrec⟩ := halloc.slots hS.recorded hsize
  · refine ⟨slots, hfile, ?_, hlist ▸ hS.recorded, hinside⟩
    rw [fileLedger_assign hledger, hpos, landing_npos db.size_le]
    exact hS.sound.assign (Nat.le_max_left _ _) (Nat.le_max_right _ _)
      (hS.sound.vacant_end key value.length) (List.Subperm.refl _)
  · refine ⟨_, hrec.file_eq, ?_, hS.recorded.recycle hrec, hinside⟩
    have hlt := firstLonger_lt hrec.first
    have hstop : entry.2.offset.toNat + entry.1.toNat ≤ db.im.dat.size :=
      hS.inside.free_le _ (List.mem_map.mpr ⟨entry, firstLonger_mem hrec.first, rfl⟩)
    have hmax : max db.ledger.limit (entry.2.offset.toNat + value.length) = db.ledger.limit :=
      Nat.max_eq_left (show _ ≤ db.im.dat.size by omega)
    have hoffset : entry.2.offset.toNat ≤ OFF_MAX := by
      have hlimit := db.size_le
      omega
    rw [fileLedger_assign hledger, hrec.pos_eq, landing_of_le hoffset, hmax]
    refine sound_recycled hS.sound ?_ hlt db.size_le
    rw [← hrec.slots_eq]
    rfl

theorem Safe.erase (hS : db.Safe slots) (h : db.erase key = some (r, db')) :
    ∃ slots', db'.Safe slots' := by
  have hinside := inside_erase hS.inside h
  obtain ⟨_, _, hdb⟩ | ⟨old, hold, _, hout⟩ := erase_cases h
  · exact ⟨slots, hdb ▸ hS⟩
  obtain ⟨hledger, _⟩ := hout.ledger_eq
  refine ⟨slots ++ [(old.offset, old.length)], ?_, ?_, ?_, hinside⟩
  · rw [hout.free, hS.file_eq, freeFile_append]
  · have hfile : db'.fileLedger (slots ++ [(old.offset, old.length)]) =
        (db.fileLedger slots).release key
          ((slots ++ [(old.offset, old.length)]).map slotExtent) := by
      rw [fileLedger, hledger]
      rfl
    rw [hfile]
    apply hS.sound.release (e := old.extent) (congrArg (Option.map IndexData.extent) hold)
    rw [List.map_append]
    exact List.perm_append_comm.subperm
  · have hsize : db.im.free.size = 1 + 12 * slots.length := by
      rw [File.size, hS.file_eq, freeFile_length]
    rw [hout.freeList, hsize]
    exact hS.recorded.emplace _ _

theorem loadFree_recorded {db₀ : DB} {indet : UInt8} (hfile : db₀.im.free.bytes = freeFile slots)
    (hsize : db₀.im.free.size < 2 ^ 31) (hempty : db₀.ctx.freeList = .empty)
    (hout : OpenOutcome indet db₀ db) :
    db.ctx.freeList.entries.Perm (fileEntries 1 slots) ∧ db.im.free.bytes = freeFile slots := by
  obtain ⟨f, hbytes, hpos, hload⟩ := hout.freeList
  have hhead : db₀.im.free.bytes.headD indet = machineEndian := by rw [hfile]; rfl
  have hsame : splice 0 db₀.im.free.bytes 0 [machineEndian] = db₀.im.free.bytes := by
    rw [hfile, freeFile, splice_header]
  have hat : f.At [machineEndian] (slots.flatMap slotBytes) :=
    ⟨hbytes.trans (hsame.trans hfile), hpos⟩
  have hlen : db₀.im.free.size = 1 + 12 * slots.length := by
    rw [File.size, hfile, freeFile_length]
  obtain ⟨f', hloop, hat'⟩ := loadFreeLoop_slots .empty hsize hat
    (congrArg List.length hfile) (show slots.length < db₀.im.free.size + 1 by omega)
  rw [hhead, hempty] at hload
  obtain ⟨hlist, rfl⟩ := Prod.mk.inj (Option.some.inj (hloop.symm.trans hload))
  refine ⟨hlist ▸ loadedFree_perm slots, ?_⟩
  rw [hat'.bytes, List.append_nil]
  rfl

/-- Closing and opening: the index comes back, and the free list is what the file holds. -/
theorem Safe.reopen {indet : UInt8} (hS : db.Safe slots) (hR : db.IndexRecorded)
    (hsmall : db.Small) (h : db.close.open indet = some (r, db')) :
    db'.Safe slots ∧ db'.IndexRecorded := by
  obtain ⟨_, hout⟩ := open_cases h
  obtain ⟨rs, hrec⟩ := hR
  have hclosed : Recorded db.close.im.idx.bytes db.ctx.index rs := hrec
  obtain ⟨hperm, hidx⟩ := hclosed.reopen hsmall.1 rfl hout
  have hclosedFile : db.close.im.free.bytes = freeFile slots := hS.file_eq
  obtain ⟨hentries, hfile⟩ := loadFree_recorded hclosedFile hsmall.2 rfl hout
  have hlive : liveExtents db'.ctx.index = liveExtents db.ctx.index := by
    funext k
    rw [liveExtents, liveExtents, AList.perm_lookup hperm]
  have hlimit : db'.im.dat.size = db.im.dat.size := congrArg List.length hout.dat
  have hledger : db'.fileLedger slots = db.fileLedger slots := by
    simp only [fileLedger, ledger, hlive, hlimit]
  have hsound : (db'.fileLedger slots).Sound := hledger ▸ hS.sound
  have hrecorded : RecordedIn db'.ctx.freeList slots :=
    fun entry hmem _ => hentries.mem_iff.mp hmem
  refine ⟨⟨hfile, hsound, hrecorded, ?_, ?_⟩, rs, ?_⟩
  · exact hsound.live_le
  · intro e he
    obtain ⟨entry, hmem, rfl⟩ := List.mem_map.mp he
    obtain ⟨pre, post, hslots, _, _⟩ := mem_fileEntries (hentries.mem_iff.mp hmem)
    refine hsound.free_le _ (List.mem_map.mpr ⟨(entry.2.offset, entry.1), ?_, rfl⟩)
    rw [hslots]
    exact List.mem_append_right _ List.mem_cons_self
  · rw [hidx]
    exact ⟨hrec.file_eq, hrec.keys_le, hrec.entries.trans hperm.symm⟩

theorem opened_safe (name : Bytes) (options : Options) : (opened name options).Safe [] where
  file_eq := rfl
  sound := opened_sound name options
  recorded entry h := by cases h
  inside := (opened_sound name options).toInside

theorem safe_step {action : Action} (hsmall : db.Small) (hR : db.IndexRecorded)
    (hS : db.Safe slots) (hbounded : action.Bounded) (h : db.act action = some (r, db')) :
    db'.IndexRecorded ∧ ∃ slots', db'.Safe slots' := by
  cases action with
  | set key value =>
    have hkey : Op.ShortKey (.set key value) := hbounded.1
    have happly : db.apply (.set key value) = some (r, db') := h
    exact ⟨hR.apply hsmall.1 hkey happly, hS.set hsmall.2 hbounded.2 h⟩
  | erase key =>
    have hkey : Op.ShortKey (.erase key) := hbounded
    have happly : db.apply (.erase key) = some (r, db') := h
    exact ⟨hR.apply hsmall.1 hkey happly, hS.erase h⟩
  | reopen indet =>
    obtain ⟨hS', hR'⟩ := hS.reopen hR hsmall h
    exact ⟨hR', slots, hS'⟩

/-- In every state reached: the extents of the live keys and of the free-list file are disjoint
and inside the data file, and every entry of positive length has its slot in the file. -/
theorem extents_disjoint {indet : UInt8} {name : Bytes} {options : Options} {db₀ : DB}
    {trace : List (Action × Result)} (hopen : (new name options).open indet = some (r, db₀))
    (hrun : Run (Steps (within act Small) fun _ action => action.Bounded) db₀ trace db) :
    ∃ slots, db.im.free.bytes = freeFile slots ∧ (db.fileLedger slots).Sound ∧
      ∀ entry ∈ db.ctx.freeList.entries, 0 < entry.1.toNat → ∃ i,
        slots[i]? = some (entry.2.offset, entry.1) ∧
        entry.2.freeListOffset.toNat = 1 + 12 * i := by
  rw [open_new] at hopen
  cases hopen
  have hinv : db.Small ∧ db.IndexRecorded ∧ ∃ slots, db.Safe slots := by
    refine hrun.invariant (I := fun db => db.Small ∧ db.IndexRecorded ∧ ∃ slots, db.Safe slots)
      ⟨?_, opened_indexRecorded name options, [], opened_safe name options⟩ ?_
    · exact ⟨show 1 < 2 ^ 31 by decide, show 1 < 2 ^ 31 by decide⟩
    · rintro s e s' ⟨hsmall, hR, slots, hS⟩ hstep
      obtain ⟨⟨hbounded, hact⟩, hsmall'⟩ := hstep.of_within
      exact ⟨hsmall', safe_step hsmall hR hS hbounded hact⟩
  obtain ⟨⟨_, hsize⟩, _, slots, hS⟩ := hinv
  refine ⟨slots, hS.file_eq, hS.sound, fun entry hmem hpos => ?_⟩
  have hne : entry.1 ≠ 0 := by
    intro hzero
    rw [hzero] at hpos
    exact absurd hpos (Nat.lt_irrefl 0)
  obtain ⟨pre, post, hslots, _, hentry⟩ := mem_fileEntries (hS.recorded entry hmem hne)
  refine ⟨pre.length, ?_, ?_⟩
  · rw [hslots, List.getElem?_append_right (Nat.le_refl _), Nat.sub_self]
    rfl
  · rw [File.size, hS.file_eq, freeFile_length, hslots, List.length_append, List.length_cons] at hsize
    rw [hentry]
    simp only [slotEntry]
    rw [UInt32.toNat_ofNat', Nat.mod_eq_of_lt (by omega)]

end

section
attribute [local instance] littleEndian

/-- Space is split, an entry of the same length is lost from memory, and reopening finds it. -/
theorem extents_disjoint_reopened :
    ∃ trace db, Run (Steps (within act Small) fun _ action => action.Bounded) (opened [] {})
        trace db ∧ db.ctx.freeList.entries.length = 2 ∧
      ∃ slots, db.im.free.bytes = freeFile slots ∧ (db.fileLedger slots).Sound := by
  have hrun : ∃ trace db, Run (Steps (within act Small) fun _ action => action.Bounded)
      (opened [] {}) trace db ∧ db.ctx.freeList.entries.length = 2 :=
    exists_run [.set [97] [1, 2], .set [98] [3, 4], .erase [97], .erase [98], .set [99] [5],
      .reopen 0] (by decide) (by decide)
  obtain ⟨trace, db, hrun, hcount⟩ := hrun
  obtain ⟨slots, hfile, hsound, _⟩ := extents_disjoint (open_new 0 [] {}) hrun
  exact ⟨trace, db, hrun, hcount, slots, hfile, hsound⟩

end

end DB

end Ambry
