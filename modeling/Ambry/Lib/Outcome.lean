import Ambry.Lib.DB

/-!
# What an operation does

One description for each of `set`, `update` and `erase`, complete in all fields
of the state. Every invariant is derived from these and none unfolds the
operations again.
-/

namespace Ambry

open Foundation

section IoManager
variable [Machine] {im im' : IoManager}

omit [Machine] in
theorem eraseFreelist_spec {off : Nat} (h : im.eraseFreelist off = some im') :
    im'.dat = im.dat ∧ im'.idx = im.idx ∧
      im'.free.bytes = splice 0 im.free.bytes off (List.replicate 12 0) := by
  obtain ⟨f, hf, h⟩ := Option.bind_eq_some_iff.mp h
  cases h
  exact ⟨rfl, rfl, (File.pwrite_eq_some.mp hf).1⟩

theorem updateFreelist_spec {off : UInt64} {size : UInt32} {n : Nat}
    (h : im.updateFreelist off size = some (n, im')) :
    n = im.free.size ∧ im'.dat = im.dat ∧ im'.idx = im.idx ∧
      im'.free.bytes = im.free.bytes ++ IoManager.freeRecord off size := by
  obtain ⟨f, hf, h⟩ := Option.bind_eq_some_iff.mp h
  cases h
  refine ⟨rfl, rfl, rfl, ?_⟩
  rw [(File.write_eq_some.mp hf).1]
  exact splice_end 0 im.free.bytes _

omit [Machine] in
theorem writeDat_spec {bs : Bytes} {pos off : UInt64} {size : UInt32}
    (h : im.writeDat bs pos size = some (off, im')) :
    off = (if pos = npos then UInt64.ofNat im.dat.size else pos) ∧ im'.idx = im.idx ∧
      im'.free = im.free ∧
      im'.dat.bytes = splice 0 im.dat.bytes off.toNat (bs.take size.toNat) ∧
      im'.dat.pos = if pos = npos then im.dat.size else im.dat.pos := by
  rw [IoManager.writeDat] at h
  by_cases hpos : pos = npos
  · simp only [if_pos hpos] at h ⊢
    obtain ⟨f, hf, h⟩ := Option.bind_eq_some_iff.mp h
    cases h
    exact ⟨rfl, rfl, rfl, File.pwrite_eq_some.mp hf⟩
  · simp only [if_neg hpos] at h ⊢
    obtain ⟨f, hf, h⟩ := Option.bind_eq_some_iff.mp h
    cases h
    exact ⟨rfl, rfl, rfl, File.pwrite_eq_some.mp hf⟩

theorem insert_spec {key : Bytes} {data data' : IndexData}
    (h : im.insert key data = some (data', im')) :
    data' = { data with idxOffset := UInt32.ofNat (currOffset im.idx.lseekEnd + 2) } ∧
      im'.dat = im.dat ∧ im'.free = im.free ∧
      im'.idx.bytes = im.idx.bytes ++ IoManager.record 1 key data.offset data.length := by
  obtain ⟨f, hf, h⟩ := Option.bind_eq_some_iff.mp h
  cases h
  refine ⟨rfl, rfl, rfl, ?_⟩
  rw [(File.write_eq_some.mp hf).1]
  exact splice_end 0 im.idx.bytes _

omit [Machine] in
theorem erase_spec {data : IndexData} (h : im.erase data = some im') :
    im'.dat = im.dat ∧ im'.free = im.free ∧
      im'.idx.bytes = splice 0 im.idx.bytes data.idxOffset.toNat [0] := by
  obtain ⟨f, hf, h⟩ := Option.bind_eq_some_iff.mp h
  cases h
  exact ⟨rfl, rfl, (File.write_eq_some.mp hf).1⟩

theorem update_spec {key : Bytes} {data : IndexData} (h : im.update key data = some im') :
    im'.dat = im.dat ∧ im'.free = im.free ∧
      im'.idx.bytes = splice 0 im.idx.bytes (data.idxOffset.toNat + key.length + 1)
        (image Machine.order data.offset ++ image Machine.order data.length) := by
  obtain ⟨f, hf, h⟩ := Option.bind_eq_some_iff.mp h
  cases h
  exact ⟨rfl, rfl, (File.pwrite_eq_some.mp hf).1⟩

end IoManager

section RW
variable [Machine] {ctx ctx' : DBContext} {im im' : IoManager} {n : Nat} {pos off : UInt64}
  {slice : Bytes}

/-- Where a write that is sent to `pos` lands in a data file of `size` bytes. -/
def landing (size : Nat) (pos : UInt64) : UInt64 := if pos = npos then UInt64.ofNat size else pos

/-- The bytes of a value that reach the data file. -/
def payload (value : Bytes) : Bytes := value.take (UInt32.ofNat value.length).toNat

def zeroSlot (bytes : Bytes) (slot : UInt32) : Bytes :=
  splice 0 bytes slot.toNat (List.replicate 12 0)

def restLength (entry : UInt32 × FreeEntry) (n : Nat) : UInt32 := UInt32.ofNat (entry.1.toNat - n)

def restOffset (entry : UInt32 × FreeEntry) (n : Nat) : UInt64 := entry.2.offset + UInt64.ofNat n

/-- The position chosen for `n` bytes, with the free list and the free-list file afterwards. -/
inductive Allocated (l : FreeList) (file : Bytes) (n : Nat) : UInt64 → FreeList → Bytes → Prop
  | recycled (entry : UInt32 × FreeEntry) (hfind : RW.firstLonger l n = some entry) :
      Allocated l file n entry.2.offset
        ((l.erase entry.1).emplace (restLength entry n)
          ⟨restOffset entry n, UInt32.ofNat (zeroSlot file entry.2.freeListOffset).length⟩)
        (zeroSlot file entry.2.freeListOffset ++
          IoManager.freeRecord (restOffset entry n) (restLength entry n))
  | atEnd (hfind : RW.firstLonger l n = none) : Allocated l file n npos l file

omit [Machine] in
theorem firstLonger_lt {l : FreeList} {entry : UInt32 × FreeEntry}
    (h : RW.firstLonger l n = some entry) : n < entry.1.toNat := by
  simpa using List.find?_some h

omit [Machine] in
theorem firstLonger_mem {l : FreeList} {entry : UInt32 × FreeEntry}
    (h : RW.firstLonger l n = some entry) : entry ∈ l.entries :=
  List.mem_of_find?_eq_some h

theorem manageFree_spec {entry : UInt32 × FreeEntry} (hlt : n < entry.1.toNat)
    (h : RW.manageFree ctx im entry n = some (off, ctx', im')) :
    off = entry.2.offset ∧ im'.dat = im.dat ∧ im'.idx = im.idx ∧
      ctx' = { ctx with
        freeList := (ctx.freeList.erase entry.1).emplace (restLength entry n)
          ⟨restOffset entry n,
            UInt32.ofNat (zeroSlot im.free.bytes entry.2.freeListOffset).length⟩ } ∧
      im'.free.bytes = zeroSlot im.free.bytes entry.2.freeListOffset ++
        IoManager.freeRecord (restOffset entry n) (restLength entry n) := by
  obtain ⟨size, free⟩ := entry
  obtain ⟨im₁, h₁, h⟩ := Option.bind_eq_some_iff.mp h
  obtain ⟨hdat₁, hidx₁, hfree₁⟩ := eraseFreelist_spec h₁
  simp only [show ¬ size.toNat - n = 0 by simp only at hlt; omega, if_false] at h
  obtain ⟨⟨slot, im₂⟩, h₂, h⟩ := Option.bind_eq_some_iff.mp h
  obtain ⟨hslot, hdat₂, hidx₂, hfree₂⟩ := updateFreelist_spec h₂
  cases h
  refine ⟨rfl, hdat₂.trans hdat₁, hidx₂.trans hidx₁, ?_, ?_⟩
  · rw [hslot, File.size, hfree₁]
    rfl
  · rw [hfree₂, hfree₁]
    rfl

theorem allocate_spec
    (h : (match RW.findFree ctx n with
      | some entry => RW.manageFree ctx im entry n
      | none => some (npos, ctx, im)) = some (pos, ctx', im')) :
    ∃ l, ctx' = { ctx with freeList := l } ∧ im'.dat = im.dat ∧ im'.idx = im.idx ∧
      Allocated ctx.freeList im.free.bytes n pos l im'.free.bytes := by
  cases hfind : RW.findFree ctx n with
  | none =>
    rw [hfind] at h
    cases h
    exact ⟨_, rfl, rfl, rfl, .atEnd hfind⟩
  | some entry =>
    rw [hfind] at h
    obtain ⟨rfl, hdat, hidx, rfl, hfree⟩ := manageFree_spec (firstLonger_lt hfind) h
    exact ⟨_, rfl, hdat, hidx, hfree ▸ .recycled entry hfind⟩

theorem free_spec {size : UInt32} (h : RW.free ctx im off size = some (ctx', im')) :
    ctx' = { ctx with
      freeList := ctx.freeList.emplace size ⟨off, UInt32.ofNat im.free.size⟩ } ∧
    im'.dat = im.dat ∧ im'.idx = im.idx ∧
      im'.free.bytes = im.free.bytes ++ IoManager.freeRecord off size := by
  obtain ⟨⟨n, im₁⟩, hslot, h⟩ := Option.bind_eq_some_iff.mp h
  obtain ⟨rfl, hd, hi, hf⟩ := updateFreelist_spec hslot
  cases h
  exact ⟨rfl, hd, hi, hf⟩

/-- What `RW::write` and `RW::update` have in common once the position is chosen. -/
structure Written (ctx : DBContext) (im : IoManager) (slice : Bytes) (pos : UInt64)
    (ctx' : DBContext) (im' : IoManager) : Prop where
  dat : im'.dat.bytes = splice 0 im.dat.bytes (landing im.dat.size pos).toNat (payload slice)
  idx : im'.idx = im.idx
  index : ctx'.index = ctx.index
  options : ctx'.options = ctx.options

theorem write_spec (h : RW.write ctx im slice = some (off, ctx', im')) :
    ∃ pos, off = landing im.dat.size pos ∧ Written ctx im slice pos ctx' im' ∧
      Allocated ctx.freeList im.free.bytes slice.length pos ctx'.freeList im'.free.bytes ∧
      (ctx'.data, ctx'.stray) =
        if ctx.options.enableCache then
          let c := Cache.write ctx slice pos (UInt32.ofNat slice.length)
          (c.data, c.stray)
        else (ctx.data, ctx.stray) := by
  rw [RW.write] at h
  obtain ⟨⟨pos, ctx₁, im₁⟩, halloc, h⟩ := Option.bind_eq_some_iff.mp h
  obtain ⟨⟨off₂, im₂⟩, hland, h⟩ := Option.bind_eq_some_iff.mp h
  obtain ⟨l, rfl, hd, hi, hplace⟩ := allocate_spec halloc
  obtain ⟨hoff, hidx, hfree, hdat, _⟩ := writeDat_spec hland
  rw [hd] at hoff hdat
  cases h
  rw [hfree]
  refine ⟨pos, hoff, ⟨by rw [hdat, hoff]; rfl, hidx.trans hi, ?_, ?_⟩, ?_, ?_⟩ <;>
    split
  · exact Cache.write_index _ _ _ _
  · rfl
  · exact Cache.write_options _ _ _ _
  · rfl
  · rw [Cache.write_freeList]
    exact hplace
  · exact hplace
  · obtain ⟨hdata, hstray⟩ := Cache.write_congr slice pos (UInt32.ofNat slice.length)
      (c := { ctx with freeList := l }) (d := ctx) rfl rfl
    exact Prod.ext hdata hstray
  · rfl

theorem rw_update_spec {oldOffset : UInt64} {oldSize : UInt32}
    (h : RW.update ctx im oldOffset oldSize slice = some (off, ctx', im')) :
    ∃ pos, off = landing im.dat.size pos ∧ Written ctx im slice pos ctx' im' ∧
      (if oldSize.toNat < slice.length then
        pos = oldOffset ∧ ctx'.freeList = ctx.freeList ∧ im'.free.bytes = im.free.bytes
      else Allocated ctx.freeList im.free.bytes slice.length pos ctx'.freeList im'.free.bytes) ∧
      (ctx'.data, ctx'.stray) =
        if ctx.options.enableCache then
          let c := Cache.writeAt ctx off.toNat slice
          (c.data, c.stray)
        else (ctx.data, ctx.stray) := by
  rw [RW.update] at h
  obtain ⟨⟨pos, ctx₁, im₁⟩, halloc, h⟩ := Option.bind_eq_some_iff.mp h
  obtain ⟨⟨off₂, im₂⟩, hland, h⟩ := Option.bind_eq_some_iff.mp h
  obtain ⟨hoff, hidx, hfree, hdat, _⟩ := writeDat_spec hland
  have hplace : ∃ l, ctx₁ = { ctx with freeList := l } ∧ im₁.dat = im.dat ∧ im₁.idx = im.idx ∧
      (if oldSize.toNat < slice.length then
        pos = oldOffset ∧ l = ctx.freeList ∧ im₁.free.bytes = im.free.bytes
      else Allocated ctx.freeList im.free.bytes slice.length pos l im₁.free.bytes) := by
    by_cases hgrow : oldSize.toNat < slice.length
    · rw [if_pos hgrow] at halloc
      cases halloc
      exact ⟨_, rfl, rfl, rfl, if_pos hgrow ▸ ⟨rfl, rfl, rfl⟩⟩
    · rw [if_neg hgrow] at halloc
      simp only [if_neg hgrow]
      exact allocate_spec halloc
  obtain ⟨l, rfl, hd, hi, hplace⟩ := hplace
  rw [hd] at hoff hdat
  cases h
  rw [hfree]
  refine ⟨pos, hoff, ⟨by rw [hdat, hoff]; rfl, hidx.trans hi, ?_, ?_⟩, ?_, ?_⟩ <;>
    [split <;> rfl; split <;> rfl; skip; split <;> rfl]
  simpa only [apply_ite DBContext.freeList, Cache.writeAt, ite_self] using hplace

theorem write_name (h : RW.write ctx im slice = some (off, ctx', im')) : ctx'.name = ctx.name := by
  obtain ⟨⟨pos, ctx₁, im₁⟩, halloc, h⟩ := Option.bind_eq_some_iff.mp h
  obtain ⟨⟨off₂, im₂⟩, _, h⟩ := Option.bind_eq_some_iff.mp h
  obtain ⟨l, rfl, _⟩ := allocate_spec halloc
  cases h
  split
  · exact Cache.write_name _ _ _ _
  · rfl

theorem rw_update_name {oldOffset : UInt64} {oldSize : UInt32}
    (h : RW.update ctx im oldOffset oldSize slice = some (off, ctx', im')) :
    ctx'.name = ctx.name := by
  obtain ⟨⟨pos, ctx₁, im₁⟩, halloc, h⟩ := Option.bind_eq_some_iff.mp h
  obtain ⟨⟨off₂, im₂⟩, _, h⟩ := Option.bind_eq_some_iff.mp h
  have hname : ctx₁.name = ctx.name := by
    split at halloc
    · cases halloc
      rfl
    · obtain ⟨l, rfl, _⟩ := allocate_spec halloc
      rfl
  cases h
  rw [← hname]
  split <;> rfl

end RW

namespace DB

variable [Machine] {db db' : DB} {key value : Bytes} {r : Result}

structure SetOutcome (db : DB) (key value : Bytes) (pos : UInt64) (db' : DB) : Prop where
  allocated : Allocated db.ctx.freeList db.im.free.bytes value.length pos
    db'.ctx.freeList db'.im.free.bytes
  dat : db'.im.dat.bytes =
    splice 0 db.im.dat.bytes (landing db.im.dat.size pos).toNat (payload value)
  idx : db'.im.idx.bytes = db.im.idx.bytes ++
    IoManager.record 1 key (landing db.im.dat.size pos) (UInt32.ofNat value.length)
  index : db'.ctx.index = db.ctx.index.insert key
    { offset := landing db.im.dat.size pos, length := UInt32.ofNat value.length,
      idxOffset := UInt32.ofNat (currOffset db.im.idx.lseekEnd + 2) }
  options : db'.ctx.options = db.ctx.options
  cache : (db'.ctx.data, db'.ctx.stray) =
    if db.ctx.options.enableCache then
      let c := Cache.write db.ctx value pos (UInt32.ofNat value.length)
      (c.data, c.stray)
    else (db.ctx.data, db.ctx.stray)

structure UpdateOutcome (db : DB) (key value : Bytes) (old : IndexData) (pos : UInt64) (db' : DB) :
    Prop where
  allocated : if old.length.toNat < value.length then
      pos = old.offset ∧ db'.ctx.freeList = db.ctx.freeList ∧
        db'.im.free.bytes = db.im.free.bytes
    else Allocated db.ctx.freeList db.im.free.bytes value.length pos
      db'.ctx.freeList db'.im.free.bytes
  dat : db'.im.dat.bytes =
    splice 0 db.im.dat.bytes (landing db.im.dat.size pos).toNat (payload value)
  idx : db'.im.idx.bytes = splice 0 db.im.idx.bytes (old.idxOffset.toNat + key.length + 1)
    (image Machine.order (landing db.im.dat.size pos) ++
      image Machine.order (UInt32.ofNat value.length))
  index : db'.ctx.index = db.ctx.index.insert key
    { old with offset := landing db.im.dat.size pos, length := UInt32.ofNat value.length }
  options : db'.ctx.options = db.ctx.options
  cache : (db'.ctx.data, db'.ctx.stray) =
    if db.ctx.options.enableCache then
      let c := Cache.writeAt db.ctx (landing db.im.dat.size pos).toNat value
      (c.data, c.stray)
    else (db.ctx.data, db.ctx.stray)

structure EraseOutcome (db : DB) (key : Bytes) (old : IndexData) (db' : DB) : Prop where
  freeList : db'.ctx.freeList =
    db.ctx.freeList.emplace old.length ⟨old.offset, UInt32.ofNat db.im.free.size⟩
  free : db'.im.free.bytes = db.im.free.bytes ++ IoManager.freeRecord old.offset old.length
  dat : db'.im.dat = db.im.dat
  idx : db'.im.idx.bytes = splice 0 db.im.idx.bytes old.idxOffset.toNat [0]
  index : db'.ctx.index = db.ctx.index.erase key
  options : db'.ctx.options = db.ctx.options
  data : db'.ctx.data = db.ctx.data
  stray : db'.ctx.stray = db.ctx.stray

theorem set_cases (h : db.set key value = some (r, db')) :
    ((∃ data, db.ctx.index.lookup key = some data) ∧
      r = ⟨.KeyNotInserted, "Could not insert key into index"⟩ ∧ db' = db) ∨
    (db.ctx.index.lookup key = none ∧ r = .success ∧ ∃ pos, SetOutcome db key value pos db') := by
  rw [set] at h
  cases hk : db.ctx.index.lookup key with
  | some data =>
    rw [hk] at h
    cases h
    exact .inl ⟨⟨data, rfl⟩, rfl, rfl⟩
  | none =>
    rw [hk] at h
    obtain ⟨⟨offset, ctx, im⟩, hwrite, h⟩ := Option.bind_eq_some_iff.mp h
    obtain ⟨⟨data, im₂⟩, hinsert, h⟩ := Option.bind_eq_some_iff.mp h
    cases h
    obtain ⟨rfl, hdat, hfree, hidx⟩ := insert_spec hinsert
    obtain ⟨pos, rfl, hw, halloc, hcache⟩ := write_spec hwrite
    refine .inr ⟨rfl, rfl, pos, hfree ▸ halloc, hdat ▸ hw.dat, hw.idx ▸ hidx, ?_, hw.options, ?_⟩
    · rw [hw.index, hw.idx]
      exact AList.insert_insert _
    · rw [hcache]
      obtain ⟨hdata, hstray⟩ := Cache.write_congr value pos (UInt32.ofNat value.length)
        (c := { db.ctx with index := db.ctx.index.insert key {} }) (d := db.ctx) rfl rfl
      cases db.ctx.options.enableCache
      · rfl
      · exact Prod.ext hdata hstray

theorem update_cases (h : db.update key value = some (r, db')) :
    (db.ctx.index.lookup key = none ∧
      r = ⟨.KeyNotFound, "key does not exist in index"⟩ ∧ db' = db) ∨
    (∃ old, db.ctx.index.lookup key = some old ∧ r = .success ∧
      ∃ pos, UpdateOutcome db key value old pos db') := by
  rw [update] at h
  cases hk : db.ctx.index.lookup key with
  | none =>
    rw [hk] at h
    cases h
    exact .inl ⟨rfl, rfl, rfl⟩
  | some old =>
    rw [hk] at h
    obtain ⟨⟨offset, ctx, im⟩, hwrite, h⟩ := Option.bind_eq_some_iff.mp h
    obtain ⟨im₂, hupdate, h⟩ := Option.bind_eq_some_iff.mp h
    cases h
    obtain ⟨hdat, hfree, hidx⟩ := update_spec hupdate
    obtain ⟨pos, rfl, hw, halloc, hcache⟩ := rw_update_spec hwrite
    refine .inr ⟨old, rfl, rfl, pos, hfree ▸ halloc, hdat ▸ hw.dat, hw.idx ▸ hidx, ?_, hw.options,
      hcache⟩
    rw [hw.index]

theorem erase_cases (h : db.erase key = some (r, db')) :
    (db.ctx.index.lookup key = none ∧
      r = ⟨.KeyNotFound, "key does not exist in index"⟩ ∧ db' = db) ∨
    (∃ old, db.ctx.index.lookup key = some old ∧ r = .success ∧ EraseOutcome db key old db') := by
  rw [erase] at h
  cases hk : db.ctx.index.lookup key with
  | none =>
    rw [hk] at h
    cases h
    exact .inl ⟨rfl, rfl, rfl⟩
  | some old =>
    rw [hk] at h
    obtain ⟨⟨ctx, im⟩, hfree, h⟩ := Option.bind_eq_some_iff.mp h
    obtain ⟨im₂, herase, h⟩ := Option.bind_eq_some_iff.mp h
    obtain ⟨rfl, hd, hi, hf⟩ := free_spec hfree
    obtain ⟨hdat, hfree, hidx⟩ := erase_spec herase
    cases h
    exact .inr ⟨old, rfl, rfl, rfl, (congrArg File.bytes hfree).trans hf, hdat.trans hd, hi ▸ hidx,
      rfl, rfl, rfl, rfl⟩

theorem set_name (h : db.set key value = some (r, db')) : db'.name = db.name := by
  rw [set] at h
  split at h
  · cases h
    rfl
  · obtain ⟨⟨offset, ctx, im⟩, hwrite, h⟩ := Option.bind_eq_some_iff.mp h
    obtain ⟨⟨data, im₂⟩, _, h⟩ := Option.bind_eq_some_iff.mp h
    cases h
    have hname := write_name hwrite
    exact hname

theorem update_name (h : db.update key value = some (r, db')) : db'.name = db.name := by
  rw [update] at h
  split at h
  · cases h
    rfl
  · obtain ⟨⟨offset, ctx, im⟩, hwrite, h⟩ := Option.bind_eq_some_iff.mp h
    obtain ⟨im₂, _, h⟩ := Option.bind_eq_some_iff.mp h
    cases h
    have hname := rw_update_name hwrite
    exact hname

theorem erase_name (h : db.erase key = some (r, db')) : db'.name = db.name := by
  rw [erase] at h
  split at h
  · cases h
    rfl
  · obtain ⟨⟨ctx, im⟩, hfree, h⟩ := Option.bind_eq_some_iff.mp h
    obtain ⟨im₂, _, h⟩ := Option.bind_eq_some_iff.mp h
    cases h
    have hname := congrArg DBContext.name (free_spec hfree).1
    exact hname

end DB

end Ambry
