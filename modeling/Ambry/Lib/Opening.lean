import Ambry.Lib.DB

/-!
# Opening

What `open` leaves in memory and in the files. Opening a name without files
creates them and writes the byte-order byte into two of them.
-/

namespace Ambry

open Foundation

variable [Machine] {indet : UInt8}

theorem handleEndian_eq (indet : UInt8) (f : File) :
    ∃ g : File, g.bytes = f.bytes ∧ g.pos = 0 ∧ handleEndian indet (f.lseekSet 0) =
      (g.write [machineEndian]).map fun f' => (f.bytes.headD indet, f') := by
  refine ⟨(readByte indet (f.lseekSet 0)).2.lseekCur (-1), ?_, ?_, ?_⟩
  · rw [File.lseekCur]
    split <;> rfl
  · cases hf : f.bytes <;> simp [readByte, File.read, File.lseekSet, File.lseekCur, window, hf]
  · cases hf : f.bytes <;>
      simp [handleEndian, writeByte, readByte, File.read, File.lseekSet, window, hf]

theorem handleEndian_pos {f f' : File} {endian : UInt8}
    (h : handleEndian indet (f.lseekSet 0) = some (endian, f')) :
    endian = f.bytes.headD indet ∧ f'.bytes = splice 0 f.bytes 0 [machineEndian] ∧ f'.pos = 1 := by
  obtain ⟨g, hbytes, hpos, heq⟩ := handleEndian_eq indet f
  obtain ⟨g', hwrite, hg'⟩ := Option.map_eq_some_iff.mp (heq ▸ h)
  cases hg'
  have hout := File.write_eq_some.mp hwrite
  rw [hbytes, hpos] at hout
  exact ⟨rfl, hout⟩

omit [Machine] in
theorem splice_header (b : UInt8) (bs : Bytes) : splice 0 ([b] ++ bs) 0 [b] = [b] ++ bs := by
  simp [splice]

theorem splice_foreign_header (b : UInt8) (bs : Bytes) :
    splice 0 ([b] ++ bs) 0 [machineEndian] = [machineEndian] ++ bs := by
  simp [splice]

/-- A file that begins with the byte of this machine is left as it was. -/
theorem handleEndian_header {f : File} {bs : Bytes} (indet : UInt8)
    (hheader : f.bytes = [machineEndian] ++ bs) :
    ∃ f', handleEndian indet (f.lseekSet 0) = some (machineEndian, f') ∧ f'.bytes = f.bytes ∧
      f'.pos = 1 := by
  obtain ⟨g, hbytes, hpos, heq⟩ := handleEndian_eq indet f
  have hsplice : f.bytes = splice 0 g.bytes g.pos [machineEndian] := by
    rw [hbytes, hpos, hheader, splice_header]
  have hwrite : g.write [machineEndian] = some ⟨f.bytes, 1, f.size_le⟩ :=
    File.write_eq_some.mpr ⟨hsplice, by rw [hpos]; rfl⟩
  have hhead : f.bytes.headD indet = machineEndian := by
    rw [hheader]
    rfl
  refine ⟨⟨f.bytes, 1, f.size_le⟩, ?_, rfl, rfl⟩
  rw [heq, hwrite, hhead]
  rfl

structure OpenOutcome (indet : UInt8) (db db' : DB) : Prop where
  dat : db'.im.dat.bytes = db.im.dat.bytes
  data : db'.ctx.data = db.im.dat.bytes
  index : ∃ f, f.bytes = splice 0 db.im.idx.bytes 0 [machineEndian] ∧ f.pos = 1 ∧
    IoManager.loadIndexLoop indet db.im.idx.size (db.im.idx.bytes.headD indet)
      (db.im.idx.size + 1) db.ctx.index f = some (db'.ctx.index, db'.im.idx)
  freeList : ∃ f, f.bytes = splice 0 db.im.free.bytes 0 [machineEndian] ∧ f.pos = 1 ∧
    IoManager.loadFreeLoop db.im.free.size (db.im.free.bytes.headD indet)
      (db.im.free.size + 1) db.ctx.freeList f = some (db'.ctx.freeList, db'.im.free)
  options : db'.ctx.options = db.ctx.options
  stray : db'.ctx.stray = db.ctx.stray

omit [Machine] in
theorem loadDat_data (ctx : DBContext) (im : IoManager) (hpos : im.dat.pos = 0) :
    (IoManager.loadDat ctx im).2.1 = { ctx with data := im.dat.bytes } := by
  simp only [IoManager.loadDat, File.read, hpos, File.size, window, List.drop_zero,
    List.take_length]
  have hlen : (IoManager.resize ctx.data im.dat.bytes.length).length = im.dat.bytes.length := by
    simp only [IoManager.resize, List.length_append, List.length_take, List.length_replicate]
    omega
  rw [splice_eq (Nat.zero_le _), List.take_zero, List.nil_append, Nat.zero_add,
    List.drop_eq_nil_of_le hlen.le, List.append_nil]

theorem DB.open_cases {db db' : DB} {r : Result} (h : db.open indet = some (r, db')) :
    r = .success ∧ OpenOutcome indet db db' := by
  obtain ⟨⟨r', ctx, im⟩, hload, h⟩ := Option.bind_eq_some_iff.mp h
  cases h
  obtain ⟨⟨_, ctx₁, im₁⟩, hindex, hload⟩ := Option.bind_eq_some_iff.mp hload
  obtain ⟨⟨endian, f⟩, hendian, hindex⟩ := Option.bind_eq_some_iff.mp hindex
  obtain ⟨⟨index, f'⟩, hloop, hindex⟩ := Option.bind_eq_some_iff.mp hindex
  cases hindex
  obtain ⟨⟨endian', g⟩, hendian', hfree⟩ := Option.bind_eq_some_iff.mp hload
  obtain ⟨⟨freeList, g'⟩, hloop', hfree⟩ := Option.bind_eq_some_iff.mp hfree
  cases hfree
  obtain ⟨rfl, hf, hfpos⟩ := handleEndian_pos hendian
  obtain ⟨rfl, hg, hgpos⟩ := handleEndian_pos hendian'
  have hdata := loadDat_data { db.ctx with index } { db.im.openFiles with idx := f' } rfl
  refine ⟨rfl, rfl, congrArg DBContext.data hdata, ⟨f, hf, hfpos, hloop⟩, ⟨g, hg, hgpos, hloop'⟩,
    rfl, rfl⟩

omit [Machine] in
theorem loadDat_dat (ctx : DBContext) (im : IoManager) (hpos : im.dat.pos = 0) :
    (IoManager.loadDat ctx im).2.2.dat = im.dat.lseekEnd := by
  have hread : im.dat.pos + (window im.dat.bytes im.dat.pos im.dat.size).length =
      im.dat.bytes.length := by
    rw [hpos, window, File.size, List.drop_zero, List.take_length, Nat.zero_add]
  simp only [IoManager.loadDat, File.read, hread]
  rfl

/-- The name stays, and the descriptor of the data file stands behind what has been read. -/
theorem DB.open_keeps {db db' : DB} {r : Result} (h : db.open indet = some (r, db')) :
    db'.name = db.name ∧ db'.im.dat = db.im.dat.lseekEnd := by
  obtain ⟨⟨r', ctx, im⟩, hload, h⟩ := Option.bind_eq_some_iff.mp h
  cases h
  obtain ⟨⟨_, ctx₁, im₁⟩, hindex, hload⟩ := Option.bind_eq_some_iff.mp hload
  obtain ⟨_, _, hindex⟩ := Option.bind_eq_some_iff.mp hindex
  obtain ⟨⟨index, idx⟩, _, hindex⟩ := Option.bind_eq_some_iff.mp hindex
  obtain ⟨_, _, hfree⟩ := Option.bind_eq_some_iff.mp hload
  obtain ⟨_, _, hfree⟩ := Option.bind_eq_some_iff.mp hfree
  cases hindex
  cases hfree
  exact ⟨rfl, loadDat_dat { db.ctx with index } { db.im.openFiles with idx } rfl⟩

theorem DB.open_name {db db' : DB} {r : Result} (h : db.open indet = some (r, db')) :
    db'.name = db.name :=
  (DB.open_keeps h).1

/-- A file that holds only its byte-order byte, with the descriptor behind it. -/
def headerFile : File := ⟨[machineEndian], 1, by simp [OFF_MAX]⟩

def DB.opened (name : Bytes) (options : Options) : DB where
  ctx := { name, options }
  im := ⟨.empty, headerFile, headerFile⟩

theorem DB.open_new (indet : UInt8) (name : Bytes) (options : Options) :
    (DB.new name options).open indet = some (.success, DB.opened name options) := rfl

end Ambry
