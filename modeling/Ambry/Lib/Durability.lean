import Ambry.Lib.CacheMirror
import Ambry.Lib.ExtentSafety
import Ambry.Lib.Refinement
import Ambry.Lib.Transaction

/-!
# A database over its whole life

Operations, transactions and reopenings, in any order, are what they would be on a
map: closing and opening is no event there. The one restriction is on updates that
grow in place. The bytes that such an update takes must be nobody's, and not only
in memory: an entry that the free list has lost and its file has not comes back
when the database is opened again.
-/

namespace Ambry

open Foundation Foundation.Extent

namespace DB

/-- What is done to a database from outside. -/
inductive Use
  | apply (op : Op)
  | commit (ops : List Op)
  | reopen (indet : UInt8)
  deriving DecidableEq, Repr

def use [Machine] (db : DB) : Use → Option (Result × DB)
  | .apply op => db.apply op
  | .commit ops => (Transaction.buffered ops).commit db
  | .reopen indet => db.close.open indet

/-- `for (auto [key, value] : db)`, with the cache on. -/
def iterate (db : DB) : List (Bytes × Option Bytes) :=
  db.ctx.index.entries.map fun e => (e.1, db.getCached e.1)

/-! ### The map that it is -/

/-- The operations up to the first that fails. -/
def commitMap (m : Bytes → Option Bytes) : List Op → Result × (Bytes → Option Bytes)
  | [] => (.success, m)
  | op :: ops => if (op.onMap m).1.ok then commitMap (op.onMap m).2 ops else op.onMap m

def Use.onMap (m : Bytes → Option Bytes) : Use → Result × (Bytes → Option Bytes)
  | .apply op => op.onMap m
  | .commit ops => commitMap m ops
  | .reopen _ => (.success, m)

/-- The results of the uses, and the map at the end. -/
def replay (m : Bytes → Option Bytes) : List Use → List Result × (Bytes → Option Bytes)
  | [] => ([], m)
  | u :: uses => ((u.onMap m).1 :: (replay (u.onMap m).2 uses).1, (replay (u.onMap m).2 uses).2)

theorem replay_concat (m : Bytes → Option Bytes) (uses : List Use) (u : Use) :
    replay m (uses ++ [u]) =
      ((replay m uses).1 ++ [(u.onMap (replay m uses).2).1], (u.onMap (replay m uses).2).2) := by
  induction uses generalizing m with
  | nil => rfl
  | cons v uses ih =>
    rw [List.cons_append, replay, ih]
    rfl

/-! ### The bytes that an update may grow into -/

section
variable [Machine]

/-- When the database is opened again, the bytes belong to no other key and to no free extent. -/
def Unowned (db : DB) (key : Bytes) (e : Extent) : Prop :=
  ∀ out ∈ db.close.open 0, out.2.ledger.Vacant key e

instance (db : DB) (key : Bytes) (e : Extent) : Decidable (Unowned db key e) :=
  inferInstanceAs (Decidable (∀ out ∈ db.close.open 0, out.2.ledger.Vacant key e))

def GrowsIntoUnowned (db : DB) : Op → Prop
  | .update key value => ∀ old ∈ db.ctx.index.lookup key, old.length.toNat < value.length →
      Unowned db key ⟨old.offset.toNat, value.length⟩
  | _ => True

instance (db : DB) : (op : Op) → Decidable (GrowsIntoUnowned db op)
  | .set _ _ => .isTrue trivial
  | .update key value => inferInstanceAs (Decidable (∀ old ∈ db.ctx.index.lookup key,
      old.length.toNat < value.length → Unowned db key ⟨old.offset.toNat, value.length⟩))
  | .erase _ => .isTrue trivial

/-- The operation leaves alone what belongs to others, and the cache is long enough for it. -/
def Spares (db : DB) (op : Op) : Prop :=
  op.Bounded ∧ GrowsIntoUnowned db op ∧ (db.isCached → StaysInside db op)

instance (db : DB) (op : Op) : Decidable (Spares db op) :=
  inferInstanceAs (Decidable (op.Bounded ∧ GrowsIntoUnowned db op ∧ (_ → StaysInside db op)))

/-- So do the operations of a transaction, as far as it is executed. -/
def SparesAll : DB → List Op → Prop
  | _, [] => True
  | db, op :: ops => Spares db op ∧ ∀ out ∈ db.apply op, out.1.ok → SparesAll out.2 ops

instance SparesAll.decidable : (db : DB) → (ops : List Op) → Decidable (SparesAll db ops)
  | _, [] => .isTrue trivial
  | db, op :: ops =>
    have (db' : DB) : Decidable (SparesAll db' ops) := SparesAll.decidable db' ops
    inferInstanceAs (Decidable (Spares db op ∧ ∀ out ∈ db.apply op, out.1.ok → SparesAll out.2 ops))

def Use.Permitted (db : DB) : Use → Prop
  | .apply op => Spares db op
  | .commit ops => SparesAll db ops
  | .reopen _ => True

instance (db : DB) : (u : Use) → Decidable (u.Permitted db)
  | .apply op => inferInstanceAs (Decidable (Spares db op))
  | .commit ops => inferInstanceAs (Decidable (SparesAll db ops))
  | .reopen _ => .isTrue trivial

end

/-! ### What is kept -/

section
variable [Machine] {db db' : DB} {slots : List Slot} {key value : Bytes} {op : Op} {ops : List Op}
  {r : Result} {indet : UInt8}

/-- The entries of the free list have their slots in the file, or no length. -/
theorem Safe.vacant (hS : db.Safe slots) {e : Extent} (h : (db.fileLedger slots).Vacant key e) :
    db.ledger.Vacant key e where
  live_apart := h.live_apart
  free_apart := by
    intro f hf
    obtain ⟨entry, hmem, rfl⟩ := List.mem_map.mp hf
    by_cases hzero : entry.1 = 0
    · refine (apart_of_length_eq_zero ?_).symm
      rw [freeExtent, hzero]
      rfl
    · obtain ⟨pre, post, hslots, _⟩ := mem_fileEntries (hS.recorded entry hmem hzero)
      refine h.free_apart _ (List.mem_map.mpr ⟨(entry.2.offset, entry.1), ?_, rfl⟩)
      rw [hslots]
      exact List.mem_append_right _ List.mem_cons_self

structure Reopened (db : DB) (slots : List Slot) (db' : DB) : Prop where
  live : db'.ledger.live = db.ledger.live
  entries : db'.ctx.freeList.entries.Perm (fileEntries 1 slots)
  dat : db'.im.dat.bytes = db.im.dat.bytes
  index : db'.ctx.index.entries.Perm db.ctx.index.entries
  idx : db'.im.idx.bytes = db.im.idx.bytes
  file : db'.im.free.bytes = db.im.free.bytes

theorem Safe.reopened (hS : db.Safe slots) (hR : db.IndexRecorded) (hsmall : db.Small)
    (h : db.close.open indet = some (r, db')) : Reopened db slots db' := by
  obtain ⟨_, hout⟩ := open_cases h
  obtain ⟨rs, hrec⟩ := hR
  have hclosed : Recorded db.close.im.idx.bytes db.ctx.index rs := hrec
  obtain ⟨hperm, hidx⟩ := hclosed.reopen hsmall.1 rfl hout
  have hclosedFile : db.close.im.free.bytes = freeFile slots := hS.file_eq
  obtain ⟨hentries, hfile⟩ := loadFree_recorded hclosedFile hsmall.2 rfl hout
  refine ⟨?_, hentries, hout.dat, hperm, hidx, hfile.trans hS.file_eq.symm⟩
  funext k
  exact congrArg (Option.map IndexData.extent) (AList.perm_lookup hperm)

theorem fileEntries_extents (start : Nat) (slots : List Slot) :
    (fileEntries start slots).map freeExtent = (slots.filter (· ≠ (0, 0))).map slotExtent := by
  induction slots generalizing start with
  | nil => rfl
  | cons s slots ih =>
    rw [fileEntries_cons, List.map_append, ih]
    by_cases hs : s = (0, 0)
    · rw [if_pos hs, List.filter_cons_of_neg (by simpa using hs)]
      rfl
    · rw [if_neg hs, List.filter_cons_of_pos (by simpa using hs)]
      rfl

namespace Reopened

theorem free (h : Reopened db slots db') :
    db'.ledger.free.Perm ((slots.filter (· ≠ (0, 0))).map slotExtent) := by
  rw [← fileEntries_extents 1]
  exact h.entries.map freeExtent

theorem limit (h : Reopened db slots db') : db'.ledger.limit = db.ledger.limit :=
  congrArg List.length h.dat

theorem sound (h : Reopened db slots db') (hS : db.Safe slots) : db'.ledger.Sound := by
  have hledger : db'.ledger = { db.fileLedger slots with free := db'.ledger.free } := by
    rw [fileLedger, ← h.live, ← h.limit]
  rw [hledger]
  apply hS.sound.forget
  exact h.free.subperm.trans (List.filter_sublist.map slotExtent).subperm

/-- What a slot that is not in use says is empty. -/
theorem vacant (h : Reopened db slots db') {e : Extent} (hvacant : db'.ledger.Vacant key e) :
    (db.fileLedger slots).Vacant key e where
  live_apart := by
    have hlive := hvacant.live_apart
    rw [h.live] at hlive
    exact hlive
  free_apart := by
    intro f hf
    obtain ⟨s, hs, rfl⟩ := List.mem_map.mp hf
    by_cases hzero : s = (0, 0)
    · exact (apart_of_length_eq_zero (by rw [hzero]; rfl)).symm
    · refine hvacant.free_apart _ (h.free.mem_iff.mpr (List.mem_map.mpr ⟨s, ?_, rfl⟩))
      exact List.mem_filter.mpr ⟨hs, by simpa using hzero⟩

omit [Machine] in
theorem get_eq [Machine] (h : Reopened db slots db') : db'.get = db.get := by
  funext k
  have hdat (n : Nat) (off : Nat) : db'.im.dat.pread n off = db.im.dat.pread n off := by
    rw [File.pread, File.pread, h.dat]
  rw [get, get, AList.perm_lookup h.index]
  simp only [IoManager.readDat, hdat]

end Reopened

/-- An update that grows goes where it was, any other one where an allocation goes. -/
theorem Safe.update (hS : db.Safe slots) (hsize : db.im.free.size < 2 ^ 31)
    (hvalue : value.length < 2 ^ 32)
    (hgrows : ∀ old ∈ db.ctx.index.lookup key, old.length.toNat < value.length →
      (db.fileLedger slots).Vacant key ⟨old.offset.toNat, value.length⟩)
    (h : db.update key value = some (r, db')) : ∃ slots', db'.Safe slots' := by
  have hinside := inside_update hS.inside h
  obtain ⟨_, _, hdb⟩ | ⟨old, hold, _, pos, hout⟩ := update_cases h
  · exact ⟨slots, hdb ▸ hS⟩
  have hlen : (UInt32.ofNat value.length).toNat = value.length := by
    rw [UInt32.toNat_ofNat', Nat.mod_eq_of_lt hvalue]
  have hledger := hout.ledger_eq hS.inside hold
  rw [hlen] at hledger
  by_cases hgrow : old.length.toNat < value.length
  · obtain ⟨hland, hlist, hfile, _⟩ := hout.grown hS.inside hold hgrow
    refine ⟨slots, hfile.trans hS.file_eq, ?_, hlist ▸ hS.recorded, hinside⟩
    rw [fileLedger_assign hledger, hland]
    exact hS.sound.assign (Nat.le_max_left _ _) (Nat.le_max_right _ _) (hgrows old hold hgrow)
      (List.Subperm.refl _)
  · have halloc := hout.allocated
    rw [if_neg hgrow, hS.file_eq] at halloc
    rw [File.size, hS.file_eq] at hsize
    obtain ⟨hpos, hlist, hfile⟩ | ⟨entry, pre, post, hrec⟩ := halloc.slots hS.recorded hsize
    · refine ⟨slots, hfile, ?_, hlist ▸ hS.recorded, hinside⟩
      rw [fileLedger_assign hledger, hpos, landing_npos db.size_le]
      exact hS.sound.assign (Nat.le_max_left _ _) (Nat.le_max_right _ _)
        (hS.sound.vacant_end key value.length) (List.Subperm.refl _)
    · refine ⟨_, hrec.file_eq, ?_, hS.recorded.recycle hrec, hinside⟩
      have hlt := firstLonger_lt hrec.first
      have hstop : entry.2.offset.toNat + entry.1.toNat ≤ db.im.dat.size :=
        hS.inside.free_le _ (List.mem_map.mpr ⟨entry, firstLonger_mem hrec.first, rfl⟩)
      have hmax : max db.ledger.limit (entry.2.offset.toNat + value.length) = db.ledger.limit :=
        Nat.max_eq_left (show _ ≤ db.im.dat.size by omega)
      have hoffset : entry.2.offset.toNat ≤ OFF_MAX := by
        have hlimit := db.size_le
        omega
      rw [fileLedger_assign hledger, hrec.pos_eq, landing_of_le hoffset, hmax]
      refine sound_recycled hS.sound ?_ hlt db.size_le
      rw [← hrec.slots_eq]
      rfl

theorem free_size_le (h : db.apply op = some (r, db')) : db.im.free.size ≤ db'.im.free.size := by
  have halloc {l l' : FreeList} {file file' : Bytes} {n : Nat} {pos : UInt64}
      (h : Allocated l file n pos l' file') : file.length ≤ file'.length := by
    cases h with
    | atEnd hfind => exact Nat.le_refl _
    | recycled entry hfind =>
      rw [List.length_append]
      exact (length_le_splice _ _ _ _).trans (Nat.le_add_right _ _)
  cases op with
  | set key value =>
    obtain ⟨_, _, hdb⟩ | ⟨_, _, pos, hout⟩ := set_cases h
    · exact hdb ▸ Nat.le_refl _
    · exact halloc hout.allocated
  | update key value =>
    obtain ⟨_, _, hdb⟩ | ⟨old, _, _, pos, hout⟩ := update_cases h
    · exact hdb ▸ Nat.le_refl _
    · have hout := hout.allocated
      split at hout
      · exact (congrArg List.length hout.2.2).ge
      · exact halloc hout
  | erase key =>
    obtain ⟨_, _, hdb⟩ | ⟨old, _, _, hout⟩ := erase_cases h
    · exact hdb ▸ Nat.le_refl _
    · rw [File.size, File.size, hout.free, List.length_append]
      exact Nat.le_add_right _ _

theorem small_of_apply (h : db.apply op = some (r, db')) (hsmall : db'.Small) : db.Small :=
  ⟨(idx_size_le h).trans_lt hsmall.1, (free_size_le h).trans_lt hsmall.2⟩

theorem small_of_commit {db db' : DB} (h : Transaction.commitLoop (ops.map Op.command) db = some (r, db'))
    (hsmall : db'.Small) : db.Small := by
  induction ops generalizing db with
  | nil =>
    cases h
    exact hsmall
  | cons op ops ih =>
    rw [List.map_cons, Transaction.commitLoop_cons] at h
    obtain ⟨⟨r₁, db₁⟩, happly, hrest⟩ := Option.bind_eq_some_iff.mp h
    apply small_of_apply happly
    dsimp only at hrest
    split at hrest
    · exact ih hrest
    · cases hrest
      exact hsmall

theorem apply_options (h : db.apply op = some (r, db')) : db'.ctx.options = db.ctx.options := by
  cases op with
  | set key value =>
    obtain ⟨_, _, hdb⟩ | ⟨_, _, pos, hout⟩ := set_cases h
    · rw [hdb]
    · exact hout.options
  | update key value =>
    obtain ⟨_, _, hdb⟩ | ⟨old, _, _, pos, hout⟩ := update_cases h
    · rw [hdb]
    · exact hout.options
  | erase key =>
    obtain ⟨_, _, hdb⟩ | ⟨old, _, _, hout⟩ := erase_cases h
    · rw [hdb]
    · exact hout.options

/-- What holds of a database between its uses. -/
structure Durable (db : DB) : Prop where
  small : db.Small
  indexRecorded : db.IndexRecorded
  safe : ∃ slots, db.Safe slots
  sound : db.ledger.Sound
  mirror : db.isCached → db.Mirror

namespace Durable

theorem unowned (h : db.Durable) (hS : db.Safe slots) {e : Extent} (hunowned : Unowned db key e) :
    (db.fileLedger slots).Vacant key e := by
  obtain ⟨db₁, hopen⟩ := db.close.open_total 0
  exact (hS.reopened h.indexRecorded h.small hopen).vacant (hunowned _ hopen)

theorem apply (h : db.Durable) (hspares : Spares db op) (hsmall : db'.Small)
    (happly : db.apply op = some (r, db')) :
    db'.Durable ∧ (r, db'.get) = op.onMap db.get := by
  obtain ⟨hbounded, hgrows, hstays⟩ := hspares
  obtain ⟨slots, hS⟩ := h.safe
  have hshort : op.ShortKey := by
    cases op with
    | set key value => exact hbounded.1
    | update key value => exact hbounded.1
    | erase key => exact hbounded
  have hvacant : GrowsIntoVacant db op := by
    cases op with
    | set key value => trivial
    | update key value =>
      exact fun old hold hgrow => hS.vacant (h.unowned hS (hgrows old hold hgrow))
    | erase key => trivial
  obtain ⟨hsound, hget⟩ := apply_refines h.sound hbounded hvacant happly
  refine ⟨⟨hsmall, h.indexRecorded.apply h.small.1 hshort happly, ?_, hsound, ?_⟩, hget⟩
  · cases op with
    | set key value => exact hS.set h.small.2 hbounded.2 happly
    | update key value =>
      exact hS.update h.small.2 hbounded.2
        (fun old hold hgrow => h.unowned hS (hgrows old hold hgrow)) happly
    | erase key => exact hS.erase happly
  · intro hcached
    have hbefore : db.isCached := by
      rw [isCached, ← apply_options happly]
      exact hcached
    exact (h.mirror hbefore).apply (hstays hbefore) happly

theorem reopen (h : db.Durable) (hopen : db.close.open indet = some (r, db')) :
    db'.Durable ∧ (r, db'.get) = (.success, db.get) := by
  obtain ⟨slots, hS⟩ := h.safe
  have hreopened := hS.reopened h.indexRecorded h.small hopen
  obtain ⟨hS', hR'⟩ := hS.reopen h.indexRecorded h.small hopen
  obtain ⟨rfl, hout⟩ := open_cases hopen
  refine ⟨⟨⟨?_, ?_⟩, hR', ⟨slots, hS'⟩, hreopened.sound hS, ?_⟩, by rw [hreopened.get_eq]⟩
  · rw [File.size, hreopened.idx]
    exact h.small.1
  · rw [File.size, hreopened.file]
    exact h.small.2
  · intro hcached
    have hoptions : db'.ctx.options = db.ctx.options := hout.options
    have hmirror := h.mirror (by rwa [isCached, ← hoptions])
    have hdata : db'.ctx.data = db'.im.dat.bytes := hout.data.trans hout.dat.symm
    have hstray : db'.ctx.stray = db.ctx.stray := hout.stray
    exact ⟨hcached, hdata, hstray.trans hmirror.inVector, hS'.inside⟩

theorem commit (h : db.Durable) (hspares : SparesAll db ops) (hsmall : db'.Small)
    (hcommit : (Transaction.buffered ops).commit db = some (r, db')) :
    db'.Durable ∧ (r, db'.get) = commitMap db.get ops := by
  rw [Transaction.commit_buffered] at hcommit
  induction ops generalizing db with
  | nil =>
    cases hcommit
    exact ⟨h, rfl⟩
  | cons op ops ih =>
    rw [List.map_cons, Transaction.commitLoop_cons] at hcommit
    obtain ⟨⟨r₁, db₁⟩, happly, hrest⟩ := Option.bind_eq_some_iff.mp hcommit
    obtain ⟨hspare, hspares⟩ := hspares
    dsimp only at hrest
    split at hrest
    case isTrue hok =>
      have hsmall₁ : db₁.Small := small_of_commit hrest hsmall
      obtain ⟨hdurable, hget⟩ := h.apply hspare hsmall₁ happly
      have hresult : (op.onMap db.get).1 = r₁ := (congrArg Prod.fst hget).symm
      have hmap : (op.onMap db.get).2 = db₁.get := (congrArg Prod.snd hget).symm
      obtain ⟨hdurable, hget⟩ := ih hdurable (hspares _ happly hok) hrest
      refine ⟨hdurable, ?_⟩
      rw [commitMap, hresult, if_pos hok, hmap]
      exact hget
    case isFalse hok =>
      cases hrest
      obtain ⟨hdurable, hget⟩ := h.apply hspare hsmall happly
      have hresult : (op.onMap db.get).1 = r := (congrArg Prod.fst hget).symm
      refine ⟨hdurable, ?_⟩
      rw [commitMap, hresult, if_neg hok]
      exact hget

theorem use {u : Use} (h : db.Durable) (hpermitted : u.Permitted db) (hsmall : db'.Small)
    (huse : db.use u = some (r, db')) : db'.Durable ∧ (r, db'.get) = u.onMap db.get := by
  cases u with
  | apply op => exact h.apply hpermitted hsmall huse
  | commit ops => exact h.commit hpermitted hsmall huse
  | reopen indet => exact h.reopen huse

end Durable

theorem opened_durable (name : Bytes) (options : Options) : (opened name options).Durable where
  small := ⟨show 1 < 2 ^ 31 by decide, show 1 < 2 ^ 31 by decide⟩
  indexRecorded := opened_indexRecorded name options
  safe := ⟨[], opened_safe name options⟩
  sound := opened_sound name options
  mirror hcached := ⟨hcached, rfl, rfl, (opened_sound name options).toInside⟩

/-- Iterating yields every key that is live, once, with its value. -/
theorem Durable.iterate (h : db.Durable) (hcached : db.isCached) :
    (db.iterate.map Prod.fst).Nodup ∧ db.iterate.length = db.size ∧
      ∀ k v, (k, some v) ∈ db.iterate ↔ db.get k = some v := by
  have hkeys : db.iterate.map Prod.fst = db.ctx.index.keys := List.map_map
  refine ⟨hkeys ▸ db.ctx.index.nodupKeys, List.length_map _, fun k v => ?_⟩
  have hget := (h.mirror hcached).getCached_eq k
  rw [← hget]
  constructor
  · intro hmem
    obtain ⟨e, he, heq⟩ := List.mem_map.mp hmem
    obtain ⟨rfl, hvalue⟩ := Prod.mk.inj heq
    exact hvalue
  · intro hvalue
    obtain ⟨data, hdata, -⟩ := Option.map_eq_some_iff.mp hvalue
    exact List.mem_map.mpr ⟨⟨k, data⟩, AList.mem_lookup_iff.mp hdata, by rw [hvalue]⟩

/-- A run of uses, on a database that was created with the first of them. -/
theorem durable {name : Bytes} {options : Options} {db₀ : DB} {trace : List (Use × Result)}
    (hopen : (new name options).open indet = some (r, db₀))
    (hrun : Run (Steps (within DB.use Small) fun db u => u.Permitted db) db₀ trace db) :
    replay (fun _ => none) (trace.map Prod.fst) = (trace.map Prod.snd, db.get) ∧
    (db.isCached → (∀ k, db.getCached k = db.get k) ∧ db.ctx.stray = false ∧
      (db.iterate.map Prod.fst).Nodup ∧ db.iterate.length = db.size ∧
      ∀ k v, (k, some v) ∈ db.iterate ↔ db.get k = some v) ∧
    ∀ indet, ∃ db', db.close.open indet = some (.success, db') ∧ db'.get = db.get := by
  rw [open_new] at hopen
  cases hopen
  have hinv : db.Durable ∧
      replay (fun _ => none) (trace.map Prod.fst) = (trace.map Prod.snd, db.get) := by
    refine hrun.history (I := fun trace db => db.Durable ∧
        replay (fun _ => none) (trace.map Prod.fst) = (trace.map Prod.snd, db.get))
      ⟨opened_durable name options, rfl⟩ ?_
    rintro trace db ⟨u, r⟩ db' ⟨hdurable, hreplay⟩ hstep
    obtain ⟨⟨hpermitted, huse⟩, hsmall⟩ := hstep.of_within
    obtain ⟨hdurable', heq⟩ := hdurable.use hpermitted hsmall huse
    refine ⟨hdurable', ?_⟩
    rw [List.map_append, List.map_append, List.map_singleton, List.map_singleton, replay_concat,
      hreplay, ← heq]
  obtain ⟨hdurable, hreplay⟩ := hinv
  refine ⟨hreplay, fun hcached => ?_, fun indet => ?_⟩
  · have hmirror := hdurable.mirror hcached
    exact ⟨hmirror.getCached_eq, hmirror.inVector, hdurable.iterate hcached⟩
  · obtain ⟨db', hreopen⟩ := db.close.open_total indet
    exact ⟨db', hreopen, congrArg Prod.snd (hdurable.reopen hreopen).2⟩

end

section
attribute [local instance] littleEndian

/-- A transaction is executed up to its last operation, and space that was given back before the
database was closed is used after it has been opened. -/
theorem durable_reopened : ∃ trace db,
    Run (Steps (within DB.use Small) fun db u => u.Permitted db) (opened [] {}) trace db ∧
      db.get [98] = some [6] ∧ db.im.dat.size = 4 ∧
      replay (fun _ => none) (trace.map Prod.fst) = (trace.map Prod.snd, db.get) := by
  have hrun : ∃ trace db,
      Run (Steps (within DB.use Small) fun db u => u.Permitted db) (opened [] {}) trace db ∧
        db.get [98] = some [6] ∧ db.im.dat.size = 4 :=
    exists_run [.apply (.set [97] [1, 2, 3]), .commit [.set [98] [4], .erase [97], .set [98] [5]],
      .reopen 0, .apply (.update [98] [6])] (by decide) (by decide)
  obtain ⟨trace, db, hrun, hget, hsize⟩ := hrun
  exact ⟨trace, db, hrun, hget, hsize, (durable (open_new 0 [] {}) hrun).1⟩

def Use.ops : Use → List Op
  | .apply op => [op]
  | .commit ops => ops
  | .reopen _ => []

/-- Bytes that are nobody's in memory, but listed as free in the file, are not safe to grow into. -/
theorem replay_ne_grown : ∃ trace db,
    Run (Steps (within DB.use Small) fun db u => ∀ op ∈ u.ops, GrowsIntoVacant db op)
        (opened [] { enableCache := false }) trace db ∧
      db.get [99] = some [7, 8, 7] ∧
      (replay (fun _ => none) (trace.map Prod.fst)).2 [99] = some [7, 7, 7] :=
  exists_run [.apply (.set [97] [1, 2]), .apply (.set [99] [0]), .apply (.set [98] [3, 4]),
    .apply (.erase [97]), .apply (.erase [98]), .apply (.set [100] [9]),
    .apply (.update [99] [7, 7, 7]), .reopen 0, .apply (.set [101] [8])] (by decide) (by decide)

end

end DB

end Ambry
