import Ambry.Lib.FreeFile
import Ambry.Lib.IndexPersistence
import Ambry.Lib.Loading

/-!
# Loading files of either byte order

The bytes of every field of a file are reversed where the byte in front tells
that they are those of a machine of the opposite order, so a file and the one
with all its fields turned around load alike. The length of a key decides where
the next record begins, also behind a record that is skipped.
-/

namespace Ambry

open Foundation

/-- A record as it may stand in an index file: any byte but zero makes it valid. -/
structure RawRecord where
  valid : UInt8
  key : Bytes
  offset : UInt64
  length : UInt32
  key_le : key.length ≤ 65535

namespace RawRecord

section
variable [Machine]

def bytes (r : RawRecord) : Bytes := IoManager.record r.valid r.key r.offset r.length

/-- The record with the bytes of its three numbers in the opposite order. -/
def turned (r : RawRecord) : Bytes :=
  (image Machine.order (UInt16.ofNat r.key.length)).reverse ++ [r.valid] ++ r.key ++
    (image Machine.order r.offset).reverse ++ (image Machine.order r.length).reverse

theorem bytes_length (r : RawRecord) : r.bytes.length = r.key.length + 15 := by
  simp only [bytes, IoManager.record, List.length_append, image_length, List.length_singleton,
    Scalar.width]
  omega

theorem turned_eq (r : RawRecord) : r.turned = @bytes ⟨Machine.order.opposite⟩ r := by
  simp only [turned, bytes, IoManager.record, image_opposite]

end

/-- The entries of the records from position `start` on, added one by one. -/
def load : (start : Nat) → List RawRecord → Index → Index
  | _, [], index => index
  | start, r :: rs, index => load (start + (r.key.length + 15)) rs
      (if r.valid = 0 then index else IoManager.emplaceIndex index r.key
        { offset := r.offset, length := r.length, idxOffset := UInt32.ofNat (start + 2) })

end RawRecord

section
variable [Machine]

def turnedSlot (s : Slot) : Bytes := (image Machine.order s.1).reverse ++ (image Machine.order s.2).reverse

theorem turnedSlot_eq (s : Slot) : turnedSlot s = @slotBytes ⟨Machine.order.opposite⟩ s := by
  simp only [turnedSlot, slotBytes, IoManager.freeRecord, image_opposite]

/-- The header byte of a machine of the opposite order. -/
def oppositeEndian : UInt8 := @machineEndian ⟨Machine.order.opposite⟩

/-- The index file and the free-list file of this machine. -/
structure Native (rs : List RawRecord) (slots : List Slot) (im : IoManager) : Prop where
  idx : im.idx.bytes = [machineEndian] ++ rs.flatMap RawRecord.bytes
  free : im.free.bytes = [machineEndian] ++ slots.flatMap slotBytes

/-- The same files with the other header byte and the fields turned around. -/
structure Turned (rs : List RawRecord) (slots : List Slot) (im : IoManager) : Prop where
  idx : im.idx.bytes = [oppositeEndian] ++ rs.flatMap RawRecord.turned
  free : im.free.bytes = [oppositeEndian] ++ slots.flatMap turnedSlot

variable {o : ByteOrder} {f : File} {pre : Bytes} {rs : List RawRecord} {slots : List Slot}
  {im : IoManager}

/-- Whatever the byte order of the records, their entries are found, and at the same places. -/
theorem loadIndexLoop_raw (indet : UInt8) (index : Index) {fsize : Nat} (hsize : fsize < 2 ^ 31)
    {fuel : Nat} (hat : f.At pre (rs.flatMap (@RawRecord.bytes ⟨o⟩)))
    (hfsize : fsize = (pre ++ rs.flatMap (@RawRecord.bytes ⟨o⟩)).length) (hfuel : rs.length < fuel) :
    ∃ f', IoManager.loadIndexLoop indet fsize (@machineEndian ⟨o⟩) fuel index f =
      some (RawRecord.load pre.length rs index, f') := by
  obtain ⟨fuel, rfl⟩ := Nat.exists_eq_succ_of_ne_zero (Nat.ne_zero_of_lt hfuel)
  induction rs generalizing fuel f pre index with
  | nil =>
    rw [List.flatMap_nil, List.append_nil] at hfsize
    have hpos : f.pos = fsize := by rw [hat.pos, hfsize]
    have hmax : fsize ≤ OFF_MAX := by
      rw [OFF_MAX]
      omega
    exact ⟨f, loadIndexLoop_end index fuel hpos.ge (by omega) hmax⟩
  | cons r rs ih =>
    rw [List.flatMap_cons] at hat hfsize
    rw [← List.append_assoc] at hfsize
    rw [List.length_cons] at hfuel
    obtain ⟨fuel, rfl⟩ := Nat.exists_eq_succ_of_ne_zero (show fuel ≠ 0 by omega)
    have hinside : pre.length < fsize := by
      rw [hfsize, List.length_append, List.length_append, @RawRecord.bytes_length ⟨o⟩]
      omega
    obtain ⟨f₁, hat₁, hturn⟩ := loadIndexLoop_entry indet index (fuel + 1) r.key_le hat hinside
      (hinside.trans hsize)
    obtain ⟨f₂, hloop⟩ := ih _ hat₁ hfsize fuel (by omega)
    refine ⟨f₂, hturn.trans (hloop.trans ?_)⟩
    have hlen : (pre ++ @IoManager.record ⟨o⟩ r.valid r.key r.offset r.length).length =
        pre.length + (r.key.length + 15) := by
      rw [List.length_append]
      exact congrArg (pre.length + ·) (@RawRecord.bytes_length ⟨o⟩ r)
    rw [hlen]
    rfl

omit [Machine] in
theorem rawIdx_length (rs : List RawRecord) :
    (rs.flatMap (@RawRecord.bytes ⟨o⟩)).length = (rs.map fun r => r.key.length + 15).sum := by
  simp only [List.length_flatMap, @RawRecord.bytes_length ⟨o⟩]

omit [Machine] in
theorem rawRecords_le (rs : List RawRecord) :
    rs.length ≤ (rs.flatMap (@RawRecord.bytes ⟨o⟩)).length := by
  have hcount : 1 * rs.length ≤ (rs.flatMap (@RawRecord.bytes ⟨o⟩)).length :=
    length_le_flatMap (fun r => by rw [@RawRecord.bytes_length ⟨o⟩]; omega) rs
  omega

/-- The header byte tells the order, and is then that of this machine. -/
theorem handleEndian_raw {bs : Bytes} (indet : UInt8) (hf : f.bytes = [@machineEndian ⟨o⟩] ++ bs) :
    ∃ f', handleEndian indet (f.lseekSet 0) = some (@machineEndian ⟨o⟩, f') ∧
      f'.At [machineEndian] bs := by
  obtain ⟨f', hendian, hbytes, hpos⟩ := handleEndian_total indet f
  rw [hf] at hendian hbytes
  exact ⟨f', hendian, hbytes.trans (splice_foreign_header _ _), hpos⟩

theorem header_length {bs : Bytes} (hf : f.bytes = [@machineEndian ⟨o⟩] ++ bs) :
    f.size = ([machineEndian] ++ bs).length ∧ f.size = 1 + bs.length := by
  rw [File.size, hf, List.length_append, List.length_append]
  exact ⟨rfl, rfl⟩

theorem loadIndex_raw (indet : UInt8) (ctx : DBContext)
    (hidx : im.idx.bytes = [@machineEndian ⟨o⟩] ++ rs.flatMap (@RawRecord.bytes ⟨o⟩))
    (hsize : im.idx.size < 2 ^ 31) : ∃ im', IoManager.loadIndex indet ctx im.openFiles =
      some (.success, { ctx with index := RawRecord.load 1 rs ctx.index }, im') := by
  obtain ⟨hfsize, hlen⟩ := header_length hidx
  have hcount := rawRecords_le (o := o) rs
  obtain ⟨f, hendian, hat⟩ := handleEndian_raw indet hidx
  obtain ⟨f', hloop⟩ := loadIndexLoop_raw indet ctx.index hsize hat hfsize
    (show rs.length < im.idx.size + 1 by omega)
  refine ⟨{ im.openFiles with idx := f' }, ?_⟩
  refine Option.bind_eq_some_iff.mpr ⟨_, hendian, ?_⟩
  exact Option.bind_eq_some_iff.mpr ⟨_, hloop, rfl⟩

theorem loadFree_raw (indet : UInt8) (ctx : DBContext)
    (hfree : im.free.bytes = [@machineEndian ⟨o⟩] ++ slots.flatMap (@slotBytes ⟨o⟩))
    (hsize : im.free.size < 2 ^ 31) : ∃ im', IoManager.loadFree indet ctx im.openFiles =
      some (.success, { ctx with
        freeList := (fileEntries 1 slots).foldl (fun l e => l.emplace e.1 e.2) ctx.freeList }, im') := by
  obtain ⟨hfsize, hlen⟩ := header_length hfree
  have hcount := @slots_length ⟨o⟩ slots
  obtain ⟨f, hendian, hat⟩ := handleEndian_raw indet hfree
  obtain ⟨f', hloop, _⟩ := loadFreeLoop_slots ctx.freeList hsize hat hfsize
    (show slots.length < im.free.size + 1 by omega)
  refine ⟨{ im.openFiles with free := f' }, ?_⟩
  refine Option.bind_eq_some_iff.mpr ⟨_, hendian, ?_⟩
  exact Option.bind_eq_some_iff.mpr ⟨_, hloop, rfl⟩

variable {native turned : IoManager}

theorem Turned.idx_eq (h : Turned rs slots turned) : turned.idx.bytes =
    [@machineEndian ⟨Machine.order.opposite⟩] ++
      rs.flatMap (@RawRecord.bytes ⟨Machine.order.opposite⟩) := by
  rw [h.idx, List.flatMap_congr fun r _ => r.turned_eq]
  rfl

theorem Turned.free_eq (h : Turned rs slots turned) : turned.free.bytes =
    [@machineEndian ⟨Machine.order.opposite⟩] ++
      slots.flatMap (@slotBytes ⟨Machine.order.opposite⟩) := by
  rw [h.free, List.flatMap_congr fun s _ => turnedSlot_eq s]
  rfl

/-- Turning the fields around moves no record. -/
theorem Turned.size_eq (h : Turned rs slots turned) (hnative : Native rs slots native) :
    turned.idx.size = native.idx.size ∧ turned.free.size = native.free.size := by
  constructor
  · rw [File.size, File.size, h.idx_eq, hnative.idx, List.length_append, List.length_append,
      rawIdx_length, rawIdx_length]
    rfl
  · rw [File.size, File.size, h.free_eq, hnative.free, List.length_append, List.length_append,
      slots_length, @slots_length ⟨Machine.order.opposite⟩]
    rfl

/-- The two pairs of files load alike: the index gets the entries of the valid records, and the free
list those of the slots in use. -/
theorem load_turned (hnative : Native rs slots native) (hturned : Turned rs slots turned)
    (hidx : native.idx.size < 2 ^ 31) (hfree : native.free.size < 2 ^ 31) (indet indet' : UInt8)
    (ctx : DBContext) : ∃ index freeList im₁ im₂ im₃ im₄,
      index = RawRecord.load 1 rs ctx.index ∧
      freeList = (fileEntries 1 slots).foldl (fun l e => l.emplace e.1 e.2) ctx.freeList ∧
      IoManager.loadIndex indet ctx native.openFiles = some (.success, { ctx with index }, im₁) ∧
      IoManager.loadIndex indet' ctx turned.openFiles = some (.success, { ctx with index }, im₂) ∧
      IoManager.loadFree indet ctx native.openFiles =
        some (.success, { ctx with freeList }, im₃) ∧
      IoManager.loadFree indet' ctx turned.openFiles =
        some (.success, { ctx with freeList }, im₄) := by
  obtain ⟨hidx', hfree'⟩ := hturned.size_eq hnative
  obtain ⟨im₁, h₁⟩ := loadIndex_raw indet ctx hnative.idx hidx
  obtain ⟨im₂, h₂⟩ := loadIndex_raw indet' ctx hturned.idx_eq (hidx'.trans_lt hidx)
  obtain ⟨im₃, h₃⟩ := loadFree_raw indet ctx hnative.free hfree
  obtain ⟨im₄, h₄⟩ := loadFree_raw indet' ctx hturned.free_eq (hfree'.trans_lt hfree)
  exact ⟨_, _, im₁, im₂, im₃, im₄, rfl, rfl, h₁, h₂, h₃, h₄⟩

/-- What opening finds in files of either byte order. -/
theorem open_raw {indet : UInt8} {db db' : DB} {r : Result}
    (hidx : db.im.idx.bytes = [@machineEndian ⟨o⟩] ++ rs.flatMap (@RawRecord.bytes ⟨o⟩))
    (hfree : db.im.free.bytes = [@machineEndian ⟨o⟩] ++ slots.flatMap (@slotBytes ⟨o⟩))
    (hidxSize : db.im.idx.size < 2 ^ 31) (hfreeSize : db.im.free.size < 2 ^ 31)
    (h : db.open indet = some (r, db')) : db'.ctx.index = RawRecord.load 1 rs db.ctx.index ∧
      db'.ctx.freeList =
        (fileEntries 1 slots).foldl (fun l e => l.emplace e.1 e.2) db.ctx.freeList := by
  obtain ⟨_, hout⟩ := DB.open_cases h
  obtain ⟨f, hf, hfpos, hload⟩ := hout.index
  obtain ⟨g, hg, hgpos, hload'⟩ := hout.freeList
  obtain ⟨hfsize, hflen⟩ := header_length hidx
  obtain ⟨hgsize, hglen⟩ := header_length hfree
  have hcount := rawRecords_le (o := o) rs
  have hcount' := @slots_length ⟨o⟩ slots
  have hhead : db.im.idx.bytes.headD indet = @machineEndian ⟨o⟩ := by
    rw [hidx]
    rfl
  have hhead' : db.im.free.bytes.headD indet = @machineEndian ⟨o⟩ := by
    rw [hfree]
    rfl
  rw [hhead] at hload
  rw [hhead'] at hload'
  rw [hidx, splice_foreign_header] at hf
  rw [hfree, splice_foreign_header] at hg
  constructor
  · obtain ⟨_, hloop⟩ := loadIndexLoop_raw indet db.ctx.index hidxSize ⟨hf, hfpos⟩ hfsize
      (show rs.length < db.im.idx.size + 1 by omega)
    exact (Prod.mk.inj (Option.some.inj (hload.symm.trans hloop))).1
  · obtain ⟨_, hloop, _⟩ := loadFreeLoop_slots db.ctx.freeList hfreeSize ⟨hg, hgpos⟩ hgsize
      (show slots.length < db.im.free.size + 1 by omega)
    exact (Prod.mk.inj (Option.some.inj (hload'.symm.trans hloop))).1

/-- The two pairs of files open to the same index and the same free list. -/
theorem open_turned (hnative : Native rs slots native) (hturned : Turned rs slots turned)
    (hidx : native.idx.size < 2 ^ 31) (hfree : native.free.size < 2 ^ 31) (indet indet' : UInt8)
    (name : Bytes) (options : Options) : ∃ db₁ db₂,
      (DB.onFiles name options native).open indet = some (.success, db₁) ∧
      (DB.onFiles name options turned).open indet' = some (.success, db₂) ∧
      db₂.ctx.index = db₁.ctx.index ∧ db₂.ctx.freeList = db₁.ctx.freeList := by
  obtain ⟨hidx', hfree'⟩ := hturned.size_eq hnative
  obtain ⟨db₁, h₁⟩ := DB.open_total indet (DB.onFiles name options native)
  obtain ⟨db₂, h₂⟩ := DB.open_total indet' (DB.onFiles name options turned)
  have hfirst := open_raw hnative.idx hnative.free hidx hfree h₁
  have hsecond := open_raw hturned.idx_eq hturned.free_eq (hidx'.trans_lt hidx)
    (hfree'.trans_lt hfree) h₂
  exact ⟨db₁, db₂, h₁, h₂, hsecond.1.trans hfirst.1.symm, hsecond.2.trans hfirst.2.symm⟩

end

section
attribute [local instance] littleEndian

theorem one_le_key : ([97] : Bytes).length ≤ 65535 := by decide

theorem two_le_key : ([98, 99] : Bytes).length ≤ 65535 := by decide

/-- A record that is skipped between two that are not. -/
def threeRecords : List RawRecord :=
  [⟨1, [97], 0, 3, one_le_key⟩, ⟨0, [98, 99], 3, 1, two_le_key⟩, ⟨7, [98, 99], 3, 2, two_le_key⟩]

theorem load_turned_three : ∃ native turned : IoManager, native.idx.bytes ≠ turned.idx.bytes ∧
    ∃ index freeList im₁ im₂ im₃ im₄,
      IoManager.loadIndex 0 { name := [], options := {} } native.openFiles =
        some (.success, { name := [], options := {}, index }, im₁) ∧
      IoManager.loadIndex 0 { name := [], options := {} } turned.openFiles =
        some (.success, { name := [], options := {}, index }, im₂) ∧
      IoManager.loadFree 0 { name := [], options := {} } native.openFiles =
        some (.success, { name := [], options := {}, freeList }, im₃) ∧
      IoManager.loadFree 0 { name := [], options := {} } turned.openFiles =
        some (.success, { name := [], options := {}, freeList }, im₄) ∧
      index.lookup [97] = some ⟨0, 3, 3⟩ ∧ index.lookup [98, 99] = some ⟨3, 2, 36⟩ ∧
      freeList.entries = [(1, ⟨5, 1⟩)] := by
  let native : IoManager := ⟨.empty,
    ⟨[machineEndian] ++ threeRecords.flatMap RawRecord.bytes, 0, by decide⟩,
    ⟨[machineEndian] ++ [((5 : UInt64), (1 : UInt32))].flatMap slotBytes, 0, by decide⟩⟩
  let turned : IoManager := ⟨.empty,
    ⟨[oppositeEndian] ++ threeRecords.flatMap RawRecord.turned, 0, by decide⟩,
    ⟨[oppositeEndian] ++ [((5 : UInt64), (1 : UInt32))].flatMap turnedSlot, 0, by decide⟩⟩
  refine ⟨native, turned, by decide, ?_⟩
  have hnative : Native threeRecords [(5, 1)] native := ⟨rfl, rfl⟩
  have hturned : Turned threeRecords [(5, 1)] turned := ⟨rfl, rfl⟩
  obtain ⟨index, freeList, im₁, im₂, im₃, im₄, rfl, rfl, hloads⟩ :=
    load_turned hnative hturned (by decide) (by decide) 0 0 { name := [], options := {} }
  exact ⟨_, _, im₁, im₂, im₃, im₄, hloads.1, hloads.2.1, hloads.2.2.1, hloads.2.2.2,
    by decide, by decide, by decide⟩

end

end Ambry
