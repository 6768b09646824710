import Ambry.Foundation.Run
import Ambry.Lib.DB
import Ambry.Lib.IndexFile
import Ambry.Lib.Loading

/-!
# The index survives in its file

`load_index` reads a recorded file back record by record, skipping the invalid
ones, and finds the entries of the index. Every operation keeps the file a
record of the index, so loading it in any state reached rebuilds the index.
-/

namespace Ambry

open Foundation

section
variable [Machine] {indet : UInt8} {f : File} {pre : Bytes} {index : Index} {rs : List IdxRecord}

omit [Machine] in
theorem foldl_emplaceIndex {l : IndexEntries} {index : Index} (hnodup : l.NodupKeys)
    (hnew : ∀ e ∈ l, e.1 ∉ index) :
    (l.foldl (fun ix e => IoManager.emplaceIndex ix e.1 e.2) index).entries.Perm
      (l ++ index.entries) := by
  induction l generalizing index with
  | nil => exact .refl _
  | cons e l ih =>
    obtain ⟨he, hl⟩ := List.nodupKeys_cons.mp hnodup
    have habsent : e.1 ∉ index := hnew e List.mem_cons_self
    rw [List.foldl_cons, IoManager.emplaceIndex, if_neg habsent]
    refine (ih hl ?_).trans ?_
    · intro t ht hmem
      obtain heq | hmem := (AList.mem_insert index).mp hmem
      · exact he (heq ▸ List.mem_keys_of_mem ht)
      · exact hnew t (List.mem_cons_of_mem e ht) hmem
    · rw [AList.entries_insert_of_notMem habsent]
      exact List.perm_middle

/-- A record is skipped if its validity byte is zero, and its entry is added if it is any other. -/
theorem loadIndexLoop_entry {o : ByteOrder} {valid : UInt8} {key : Bytes} {offset : UInt64}
    {length : UInt32} {post : Bytes} {fsize : Nat} (indet : UInt8) (index : Index) (fuel : Nat)
    (hkey : key.length ≤ 65535)
    (hat : f.At pre (@IoManager.record ⟨o⟩ valid key offset length ++ post))
    (hinside : pre.length < fsize) (hsmall : pre.length < 2 ^ 31) :
    ∃ f', f'.At (pre ++ @IoManager.record ⟨o⟩ valid key offset length) post ∧
      IoManager.loadIndexLoop indet fsize (@machineEndian ⟨o⟩) (fuel + 1) index f =
        IoManager.loadIndexLoop indet fsize (@machineEndian ⟨o⟩) fuel
          (if valid = 0 then index else IoManager.emplaceIndex index key
            { offset, length, idxOffset := UInt32.ofNat (pre.length + 2) }) f' := by
  have hkeyLen : (UInt16.ofNat key.length).toNat = key.length := by
    rw [UInt16.toNat_ofNat', Nat.mod_eq_of_lt (by omega)]
  rw [IoManager.loadIndexLoop, hat.currOffset_eq hsmall, if_pos hinside]
  have hbytes : pre ++ @IoManager.record ⟨o⟩ valid key offset length =
      pre ++ image o (UInt16.ofNat key.length) ++ [valid] ++ key ++ image o offset ++
        image o length := by
    simp only [IoManager.record, List.append_assoc]
  simp only [IoManager.record, List.append_assoc] at hat
  obtain ⟨f₁, h₁, hat₁⟩ := hat.readN
  have hlen₁ : (pre ++ image o (UInt16.ofNat key.length)).length = pre.length + 2 := by
    rw [List.length_append, image_length]
    rfl
  obtain ⟨f₂, h₂, hat₂⟩ := hat₁.readByte indet
  simp only [h₁, h₂, ofNat_currOffset, hat₁.pos, hlen₁]
  by_cases hvalid : valid = 0
  · have hskip : (key ++ image o offset ++ image o length).length = key.length + 8 + 4 := by
      simp only [List.length_append, image_length, Scalar.width]
    have htail : key ++ (image o offset ++ (image o length ++ post)) =
        key ++ image o offset ++ image o length ++ post := by
      simp only [List.append_assoc]
    have hahead : f₂.At (pre ++ image o (UInt16.ofNat key.length) ++ [valid])
        (key ++ image o offset ++ image o length ++ post) := htail ▸ hat₂
    have hat₃ := hahead.skip
    rw [hskip] at hat₃
    refine ⟨f₂.lseekCur (key.length + 8 + 4), ?_, ?_⟩
    · rw [hbytes]
      simpa only [List.append_assoc, Nat.cast_add, Nat.cast_ofNat] using hat₃
    · simp only [hkeyLen, if_pos hvalid]
  · obtain ⟨f₃, h₃, hat₃⟩ := hat₂.read key
    obtain ⟨f₄, h₄, hat₄⟩ := hat₃.readN
    obtain ⟨f₅, h₅, hat₅⟩ := hat₄.readN
    refine ⟨f₅, hbytes ▸ hat₅, ?_⟩
    simp only [if_neg hvalid, hkeyLen, h₃, h₄, h₅, Nat.sub_self, List.replicate_zero,
      List.append_nil]

theorem loadIndexLoop_record {o : ByteOrder} {r : IdxRecord} {post : Bytes} {fsize : Nat}
    (indet : UInt8) (index : Index) (fuel : Nat) (hkey : r.key.length ≤ 65535)
    (hat : f.At pre (@IdxRecord.bytes ⟨o⟩ r ++ post)) (hinside : pre.length < fsize)
    (hsmall : pre.length < 2 ^ 31) :
    ∃ f', f'.At (pre ++ @IdxRecord.bytes ⟨o⟩ r) post ∧
      IoManager.loadIndexLoop indet fsize (@machineEndian ⟨o⟩) (fuel + 1) index f =
        IoManager.loadIndexLoop indet fsize (@machineEndian ⟨o⟩) fuel
          (if r.valid then IoManager.emplaceIndex index r.key (r.entry pre.length).2 else index) f' := by
  obtain ⟨f', hat', hturn⟩ := loadIndexLoop_entry indet index fuel hkey hat hinside hsmall
  refine ⟨f', hat', hturn.trans ?_⟩
  cases r.valid <;> rfl

/-- The loop takes the records ahead one by one, whatever comes behind them. -/
theorem loadIndexLoop_ahead {o : ByteOrder} (indet : UInt8) (index : Index) {post : Bytes}
    {fsize : Nat} (hsize : fsize < 2 ^ 31) (hkeys : ∀ r ∈ rs, r.key.length ≤ 65535) (fuel : Nat)
    (hat : f.At pre (rs.flatMap (@IdxRecord.bytes ⟨o⟩) ++ post))
    (hinside : (pre ++ rs.flatMap (@IdxRecord.bytes ⟨o⟩)).length ≤ fsize) :
    ∃ f', f'.At (pre ++ rs.flatMap (@IdxRecord.bytes ⟨o⟩)) post ∧
      IoManager.loadIndexLoop indet fsize (@machineEndian ⟨o⟩) (fuel + rs.length) index f =
        IoManager.loadIndexLoop indet fsize (@machineEndian ⟨o⟩) fuel
          ((validEntries pre.length rs).foldl (fun ix e => IoManager.emplaceIndex ix e.1 e.2) index)
          f' := by
  induction rs generalizing f pre index with
  | nil =>
    rw [List.flatMap_nil] at hat ⊢
    rw [List.append_nil]
    exact ⟨f, hat, rfl⟩
  | cons r rs ih =>
    rw [List.flatMap_cons] at hat hinside ⊢
    rw [List.append_assoc] at hat
    rw [← List.append_assoc] at hinside ⊢
    have hlt : pre.length < fsize := by
      rw [List.length_append, List.length_append, @IdxRecord.bytes_length ⟨o⟩] at hinside
      omega
    obtain ⟨f₁, hat₁, hturn⟩ := loadIndexLoop_record indet index (fuel + rs.length)
      (hkeys r List.mem_cons_self) hat hlt (hlt.trans hsize)
    obtain ⟨f₂, hat₂, hloop⟩ := ih _ (fun t ht => hkeys t (List.mem_cons_of_mem r ht)) hat₁ hinside
    refine ⟨f₂, hat₂, ?_⟩
    rw [List.length_cons, ← Nat.add_assoc, hturn, hloop, validEntries_cons, List.length_append,
      @IdxRecord.bytes_length ⟨o⟩, ← r.bytes_length, List.foldl_append]
    cases r.valid <;> rfl

theorem loadIndexLoop_end {fsize : Nat} {endian : UInt8} (index : Index) (fuel : Nat)
    (hend : fsize ≤ f.pos) (hpos : f.pos < 2 ^ 32) (hsize : fsize ≤ OFF_MAX) :
    IoManager.loadIndexLoop indet fsize endian (fuel + 1) index f = some (index, f) := by
  rw [IoManager.loadIndexLoop, if_neg]
  intro hinside
  exact Nat.not_lt.mpr hend (pos_lt_of_currOffset hpos hsize hinside).2

theorem loadIndexLoop_records {o : ByteOrder} (indet : UInt8) (index : Index) {fsize : Nat}
    (hsize : fsize < 2 ^ 31) (hkeys : ∀ r ∈ rs, r.key.length ≤ 65535) {fuel : Nat}
    (hat : f.At pre (rs.flatMap (@IdxRecord.bytes ⟨o⟩)))
    (hfsize : fsize = (pre ++ rs.flatMap (@IdxRecord.bytes ⟨o⟩)).length) (hfuel : rs.length < fuel) :
    ∃ f', IoManager.loadIndexLoop indet fsize (@machineEndian ⟨o⟩) fuel index f =
        some ((validEntries pre.length rs).foldl (fun ix e => IoManager.emplaceIndex ix e.1 e.2)
          index, f') ∧ f'.At (pre ++ rs.flatMap (@IdxRecord.bytes ⟨o⟩)) [] := by
  obtain ⟨more, rfl⟩ := Nat.exists_eq_add_of_lt hfuel
  rw [← List.append_nil (rs.flatMap _)] at hat
  obtain ⟨f', hat', hloop⟩ := loadIndexLoop_ahead indet index hsize hkeys (more + 1) hat hfsize.ge
  refine ⟨f', ?_, hat'⟩
  have hpos : f'.pos = fsize := by rw [hat'.pos, hfsize]
  have hmax : fsize ≤ OFF_MAX := by
    rw [OFF_MAX]
    omega
  rw [show rs.length + more + 1 = more + 1 + rs.length by omega, hloop]
  exact loadIndexLoop_end _ _ hpos.ge (by omega) hmax

theorem Recorded.loop {file : Bytes} (h : Recorded file index rs) (hsize : file.length < 2 ^ 31)
    (indet : UInt8) (hbytes : f.bytes = file) (hpos : f.pos = 1) :
    ∃ index' f', IoManager.loadIndexLoop indet file.length machineEndian (file.length + 1) ∅ f =
        some (index', f') ∧ index'.entries.Perm index.entries ∧ f'.bytes = file := by
  have hfile := h.file_eq
  rw [idxFile] at hfile
  have hat : f.At [machineEndian] (rs.flatMap IdxRecord.bytes) := ⟨hbytes.trans hfile, hpos⟩
  have hcount : 1 * rs.length ≤ (rs.flatMap IdxRecord.bytes).length :=
    length_le_flatMap (fun r => by rw [r.bytes_length]; omega) rs
  have hlen := congrArg List.length hfile
  rw [List.length_append] at hlen
  obtain ⟨f', hloop, hat'⟩ := loadIndexLoop_records indet ∅ hsize h.keys_le hat
    (congrArg List.length hfile) (show rs.length < file.length + 1 by omega)
  refine ⟨_, f', hloop, ?_, ?_⟩
  · have hnodup := (List.perm_nodupKeys h.entries).mpr index.nodupKeys
    refine (foldl_emplaceIndex hnodup fun e _ => AList.notMem_empty e.1).trans ?_
    rw [AList.empty_entries, List.append_nil]
    exact h.entries
  · rw [hat'.bytes, List.append_nil, hfile]

/-- Opening finds the recorded index and leaves the file as it was. -/
theorem Recorded.reopen {db db' : DB} (h : Recorded db.im.idx.bytes index rs)
    (hsize : db.im.idx.size < 2 ^ 31) (hempty : db.ctx.index = ∅)
    (hout : OpenOutcome indet db db') :
    db'.ctx.index.entries.Perm index.entries ∧ db'.im.idx.bytes = db.im.idx.bytes := by
  obtain ⟨f, hbytes, hpos, hload⟩ := hout.index
  have hhead : db.im.idx.bytes.headD indet = machineEndian := by rw [h.file_eq]; rfl
  have hsame : splice 0 db.im.idx.bytes 0 [machineEndian] = db.im.idx.bytes := by
    rw [h.file_eq, idxFile, splice_header]
  obtain ⟨index', f', hloop, hperm, hfile⟩ := h.loop hsize indet (hbytes.trans hsame) hpos
  rw [hhead, hempty, File.size, hloop] at hload
  cases hload
  exact ⟨hperm, hfile⟩

theorem Recorded.loadIndex {im : IoManager} (h : Recorded im.idx.bytes index rs)
    (hsize : im.idx.size < 2 ^ 31) (indet : UInt8) (ctx : DBContext) (hempty : ctx.index = ∅) :
    ∃ ctx' im', IoManager.loadIndex indet ctx im.openFiles = some (.success, ctx', im') ∧
      ctx'.index.entries.Perm index.entries := by
  obtain ⟨f, hendian, hbytes, hpos⟩ := handleEndian_header indet h.file_eq
  obtain ⟨index', f', hloop, hperm, _⟩ := h.loop hsize indet hbytes hpos
  refine ⟨{ ctx with index := index' }, { im.openFiles with idx := f' }, ?_, hperm⟩
  refine Option.bind_eq_some_iff.mpr ⟨_, hendian, ?_⟩
  rw [hempty]
  exact Option.bind_eq_some_iff.mpr ⟨_, hloop, rfl⟩

end

namespace DB

def Op.ShortKey (op : Op) : Prop := op.key.length ≤ 65535

instance (op : Op) : Decidable op.ShortKey := inferInstanceAs (Decidable (_ ≤ _))

section
variable [Machine] {db db' : DB} {op : Op} {r : Result}

theorem idx_size_le (h : db.apply op = some (r, db')) : db.im.idx.size ≤ db'.im.idx.size := by
  cases op with
  | set key value =>
    obtain ⟨_, _, hdb⟩ | ⟨_, _, pos, hout⟩ := set_cases h
    · exact hdb ▸ Nat.le_refl _
    · rw [File.size, File.size, hout.idx, List.length_append]
      exact Nat.le_add_right _ _
  | update key value =>
    obtain ⟨_, _, hdb⟩ | ⟨old, _, _, pos, hout⟩ := update_cases h
    · exact hdb ▸ Nat.le_refl _
    · rw [File.size, File.size, hout.idx]
      exact length_le_splice _ _ _ _
  | erase key =>
    obtain ⟨_, _, hdb⟩ | ⟨old, _, _, hout⟩ := erase_cases h
    · exact hdb ▸ Nat.le_refl _
    · rw [File.size, File.size, hout.idx]
      exact length_le_splice _ _ _ _

def IndexRecorded (db : DB) : Prop := ∃ rs, Recorded db.im.idx.bytes db.ctx.index rs

theorem opened_indexRecorded (name : Bytes) (options : Options) :
    (opened name options).IndexRecorded := ⟨[], recorded_empty⟩

theorem IndexRecorded.apply (hR : db.IndexRecorded) (hsize : db.im.idx.size < 2 ^ 31)
    (hkey : op.ShortKey) (h : db.apply op = some (r, db')) : db'.IndexRecorded := by
  obtain ⟨rs, hrec⟩ := hR
  cases op with
  | set key value =>
    obtain ⟨_, _, hdb⟩ | ⟨hnone, _, pos, hout⟩ := set_cases h
    · exact hdb ▸ ⟨rs, hrec⟩
    have hoffset : currOffset db.im.idx.lseekEnd = db.im.idx.bytes.length := currOffset_eq hsize
    refine ⟨rs ++ [⟨true, key, landing db.im.dat.size pos, UInt32.ofNat value.length⟩], ?_⟩
    rw [hout.index, hoffset]
    exact hrec.insert { offset := _, length := _, idxOffset := _ } (AList.lookup_eq_none.mp hnone)
      hkey hout.idx rfl
  | update key value =>
    obtain ⟨_, _, hdb⟩ | ⟨old, hold, _, pos, hout⟩ := update_cases h
    · exact hdb ▸ ⟨rs, hrec⟩
    obtain ⟨pre, t, post, hslot⟩ := hrec.slot hold
    exact ⟨_, hout.index ▸ hslot.update hsize hout.idx⟩
  | erase key =>
    obtain ⟨_, _, hdb⟩ | ⟨old, hold, _, hout⟩ := erase_cases h
    · exact hdb ▸ ⟨rs, hrec⟩
    obtain ⟨pre, t, post, hslot⟩ := hrec.slot hold
    exact ⟨_, hout.index ▸ hslot.erase hsize hout.idx⟩

theorem indexRecorded_run {indet : UInt8} {name : Bytes} {options : Options} {db₀ : DB}
    {trace : List (Op × Result)} (hopen : (new name options).open indet = some (r, db₀))
    (hrun : Run (Steps DB.apply fun _ op => op.ShortKey) db₀ trace db)
    (hsize : db.im.idx.size < 2 ^ 31) : db.IndexRecorded := by
  rw [open_new] at hopen
  cases hopen
  refine hrun.invariant (I := fun db => db.im.idx.size < 2 ^ 31 → db.IndexRecorded)
    (fun _ => opened_indexRecorded name options) ?_ hsize
  rintro s ⟨op, r⟩ s' hR ⟨hkey, happly⟩ hsize'
  have hsize := Nat.lt_of_le_of_lt (idx_size_le happly) hsize'
  exact (hR hsize).apply hsize hkey happly

/-- In every state reached with an index file under `2 ^ 31` bytes: loading the file rebuilds the
index, and of the records in it exactly one is valid for each live key, none for any other. -/
theorem loadIndex_rebuilds {indet : UInt8} {name : Bytes} {options : Options} {db₀ : DB}
    {trace : List (Op × Result)} (hopen : (new name options).open indet = some (r, db₀))
    (hrun : Run (Steps DB.apply fun _ op => op.ShortKey) db₀ trace db)
    (hsize : db.im.idx.size < 2 ^ 31) :
    (∀ indet (ctx : DBContext) (im : IoManager), ctx.index = ∅ → im.idx.bytes = db.im.idx.bytes →
      ∃ ctx' im', IoManager.loadIndex indet ctx im.openFiles = some (.success, ctx', im') ∧
        ∀ k, ctx'.index.lookup k = db.ctx.index.lookup k) ∧
    ∃ rs, db.im.idx.bytes = idxFile rs ∧ ∀ k, (validEntries 1 rs).filter (fun e => e.1 = k) =
      (db.ctx.index.lookup k).toList.map fun data => ⟨k, data⟩ := by
  obtain ⟨rs, hrec⟩ := indexRecorded_run hopen hrun hsize
  constructor
  · rintro indet ctx im hempty hbytes
    have hsize' : im.idx.size < 2 ^ 31 := by rwa [File.size, hbytes]
    rw [← hbytes] at hrec
    obtain ⟨ctx', im', hload, hperm⟩ := hrec.loadIndex hsize' indet ctx hempty
    exact ⟨ctx', im', hload, fun k => AList.perm_lookup hperm⟩
  · exact ⟨rs, hrec.file_eq, filter_key_of_perm hrec.entries⟩

end

section
attribute [local instance] littleEndian

/-- A key is stored, erased and stored again, next to another key that is updated. -/
theorem loadIndex_rebuilds_reset :
    ∃ trace db, Run (Steps DB.apply fun _ op => op.ShortKey) (opened [] {}) trace db ∧
      db.im.idx.size = 49 ∧ ∃ ctx im, IoManager.loadIndex 0 { name := [], options := {} }
        db.im.openFiles = some (.success, ctx, im) ∧
      ∀ k, ctx.index.lookup k = db.ctx.index.lookup k := by
  have hrun : ∃ trace db, Run (Steps DB.apply fun _ op => op.ShortKey) (opened [] {}) trace db ∧
      db.im.idx.size = 49 :=
    exists_run [.set [97] [1], .set [98] [2], .erase [97], .update [98] [3], .set [97] [4]]
      (by decide) (by decide)
  obtain ⟨trace, db, hrun, hsize⟩ := hrun
  have hrebuilt := (loadIndex_rebuilds (open_new 0 [] {}) hrun (by omega)).1
  exact ⟨trace, db, hrun, hsize, hrebuilt 0 { name := [], options := {} } db.im rfl rfl⟩

end

end DB

end Ambry
