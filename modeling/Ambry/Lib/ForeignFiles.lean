import Ambry.Lib.FreeFile
import Ambry.Lib.IndexPersistence
import Ambry.Lib.Loading

/-!
# Files of another machine

Opening rewrites the byte-order byte of a file and leaves its records as they
are. The next opening reads the same records in the byte order of this machine,
which comes to the same thing only for records that read alike in both.
-/

namespace Ambry

open Foundation

theorem File.At.unique {f g : File} {pre post : Bytes} (hf : f.At pre post) (hg : g.At pre post) :
    f = g := by
  obtain ⟨fbytes, fpos, _⟩ := f
  obtain ⟨gbytes, gpos, _⟩ := g
  obtain ⟨rfl, rfl⟩ := hf
  obtain ⟨rfl, rfl⟩ := hg
  rfl

section
variable [Machine]

/-- This machine reads the record as a machine of byte order `o` does, so far as it is read. -/
def IdxRecord.Alike (o : ByteOrder) (r : IdxRecord) : Prop :=
  Machine.order = o ∨ Symmetric (UInt16.ofNat r.key.length) ∧
    (r.valid = true → Symmetric r.offset ∧ Symmetric r.length)

instance (o : ByteOrder) (r : IdxRecord) : Decidable (r.Alike o) :=
  inferInstanceAs (Decidable (_ ∨ _ ∧ (_ → _)))

def Slot.Alike (o : ByteOrder) (s : Slot) : Prop :=
  Machine.order = o ∨ Symmetric s.1 ∧ Symmetric s.2

instance (o : ByteOrder) (s : Slot) : Decidable (s.Alike o) := inferInstanceAs (Decidable (_ ∨ _))

/-- The files of a database that a machine of byte order `o` has written. -/
structure FilesOf (o : ByteOrder) (im : IoManager) (rs : List IdxRecord) (slots : List Slot) :
    Prop where
  idx : im.idx.bytes = @idxFile ⟨o⟩ rs
  free : im.free.bytes = @freeFile ⟨o⟩ slots
  keys_le : ∀ r ∈ rs, r.key.length ≤ 65535
  nodup : ((rs.filter fun r => r.valid).map fun r => r.key).Nodup

/-- The record as this machine reads it. -/
def IdxRecord.reread (o : ByteOrder) (r : IdxRecord) : IdxRecord where
  valid := r.valid
  key := r.key
  offset := ofImage Machine.order (image o r.offset)
  length := ofImage Machine.order (image o r.length)

section
variable {o : ByteOrder} {r : IdxRecord} {s : Slot} {rs : List IdxRecord}

theorem IdxRecord.reread_valid (o : ByteOrder) (r : IdxRecord) : (r.reread o).valid = r.valid := rfl

theorem IdxRecord.Alike.reread_bytes (h : r.Alike o) :
    (r.reread o).bytes = @IdxRecord.bytes ⟨o⟩ r := by
  have hlen : image Machine.order (UInt16.ofNat r.key.length) =
      image o (UInt16.ofNat r.key.length) := by
    obtain rfl | h := h
    · rfl
    · exact h.1.image_eq _ _
  simp only [IdxRecord.bytes, IoManager.record, IdxRecord.reread, hlen]
  rw [image_ofImage _ (image_length o r.offset), image_ofImage _ (image_length o r.length)]
  rfl

theorem IdxRecord.Alike.reread_eq (h : r.Alike o) (hvalid : r.valid = true) : r.reread o = r := by
  have himage : image o r.offset = image Machine.order r.offset ∧
      image o r.length = image Machine.order r.length := by
    obtain rfl | h := h
    · exact ⟨rfl, rfl⟩
    · exact ⟨(h.2 hvalid).1.image_eq _ _, (h.2 hvalid).2.image_eq _ _⟩
  rw [IdxRecord.reread, himage.1, himage.2, ofImage_image, ofImage_image]

theorem Slot.Alike.bytes_eq (h : s.Alike o) : slotBytes s = @slotBytes ⟨o⟩ s := by
  obtain rfl | h := h
  · rfl
  · simp only [slotBytes, IoManager.freeRecord, h.1.image_eq Machine.order o,
      h.2.image_eq Machine.order o]

theorem reread_flatMap (h : ∀ r ∈ rs, r.Alike o) :
    (rs.map (IdxRecord.reread o)).flatMap IdxRecord.bytes = rs.flatMap (@IdxRecord.bytes ⟨o⟩) := by
  rw [List.flatMap_map]
  exact List.flatMap_congr fun r hr => (h r hr).reread_bytes

theorem validEntries_keys (start : Nat) (rs : List IdxRecord) :
    (validEntries start rs).keys = (rs.filter fun r => r.valid).map fun r => r.key := by
  induction rs generalizing start with
  | nil => rfl
  | cons r rs ih =>
    rw [validEntries_cons, List.filter_cons, List.keys, List.map_append]
    cases r.valid with
    | false => exact ih _
    | true => exact congrArg (r.key :: ·) (ih _)

theorem validEntries_reread (h : ∀ r ∈ rs, r.Alike o) (start : Nat) :
    validEntries start (rs.map (IdxRecord.reread o)) = validEntries start rs := by
  induction rs generalizing start with
  | nil => rfl
  | cons r rs ih =>
    have hr := h r List.mem_cons_self
    rw [List.map_cons, validEntries_cons, validEntries_cons, (r.reread o).bytes_length,
      r.bytes_length, ih fun t ht => h t (List.mem_cons_of_mem r ht)]
    cases hvalid : r.valid with
    | false =>
      rw [IdxRecord.reread_valid, hvalid]
      rfl
    | true => rw [hr.reread_eq hvalid, hvalid]

end

section
variable {o : ByteOrder} {f : File} {pre : Bytes} {rs : List IdxRecord} {slots : List Slot}
  {fsize : Nat}

/-- Loading turns out the same whichever of the two byte orders the records are taken for. -/
theorem loadIndexLoop_alike (indet indet' : UInt8) (halike : ∀ r ∈ rs, r.Alike o)
    (hkeys : ∀ r ∈ rs, r.key.length ≤ 65535) (fuel : Nat) (index : Index)
    (hat : f.At pre (rs.flatMap (@IdxRecord.bytes ⟨o⟩)))
    (hfsize : fsize = (pre ++ rs.flatMap (@IdxRecord.bytes ⟨o⟩)).length)
    (hpos : pre.length < 2 ^ 31 + 2 ^ 17) :
    IoManager.loadIndexLoop indet fsize (@machineEndian ⟨o⟩) fuel index f =
      IoManager.loadIndexLoop indet' fsize machineEndian fuel index f := by
  induction fuel generalizing rs index f pre with
  | zero => rfl
  | succ fuel ih =>
    by_cases hinside : currOffset f < fsize
    · obtain ⟨hsmall, hlt⟩ := pos_lt_of_currOffset (by rw [hat.pos]; omega)
        (hfsize ▸ hat.size ▸ f.size_le) hinside
      rw [hat.pos] at hsmall hlt
      cases rs with
      | nil =>
        rw [hfsize, List.flatMap_nil, List.append_nil] at hlt
        exact absurd hlt (Nat.lt_irrefl _)
      | cons r rs =>
        have hr := halike r List.mem_cons_self
        have hkey := hkeys r List.mem_cons_self
        rw [List.flatMap_cons] at hat hfsize
        obtain ⟨f₁, hat₁, hturn⟩ := loadIndexLoop_record indet index fuel hkey hat hlt hsmall
        rw [← hr.reread_bytes] at hat
        obtain ⟨f₂, hat₂, hturn'⟩ := loadIndexLoop_record indet' index fuel
          (r := r.reread o) hkey hat hlt hsmall
        rw [hr.reread_bytes] at hat₂
        have hentry : (if (r.reread o).valid then
              IoManager.emplaceIndex index (r.reread o).key ((r.reread o).entry pre.length).2
            else index) =
            if r.valid then IoManager.emplaceIndex index r.key (r.entry pre.length).2 else index := by
          cases hvalid : r.valid with
          | false =>
            rw [IdxRecord.reread_valid, hvalid]
            rfl
          | true => rw [hr.reread_eq hvalid, hvalid]
        rw [hentry, hat₂.unique hat₁] at hturn'
        have hlen : (pre ++ @IdxRecord.bytes ⟨o⟩ r).length = pre.length + (r.key.length + 15) := by
          rw [List.length_append, @IdxRecord.bytes_length ⟨o⟩]
        have hrest := ih (fun t ht => halike t (List.mem_cons_of_mem r ht))
          (fun t ht => hkeys t (List.mem_cons_of_mem r ht))
          (if r.valid then IoManager.emplaceIndex index r.key (r.entry pre.length).2 else index) hat₁
          (by rw [hfsize, List.append_assoc]) (by omega)
        exact hturn.trans (hrest.trans hturn'.symm)
    · rw [IoManager.loadIndexLoop, IoManager.loadIndexLoop, if_neg hinside, if_neg hinside]

theorem loadFreeLoop_alike (halike : ∀ s ∈ slots, s.Alike o) (fuel : Nat) (l : FreeList)
    (hat : f.At pre (slots.flatMap (@slotBytes ⟨o⟩)))
    (hfsize : fsize = (pre ++ slots.flatMap (@slotBytes ⟨o⟩)).length)
    (hpos : pre.length < 2 ^ 31 + 2 ^ 17) :
    IoManager.loadFreeLoop fsize (@machineEndian ⟨o⟩) fuel l f =
      IoManager.loadFreeLoop fsize machineEndian fuel l f := by
  induction fuel generalizing slots l f pre with
  | zero => rfl
  | succ fuel ih =>
    by_cases hinside : currOffset f < fsize
    · obtain ⟨hsmall, hlt⟩ := pos_lt_of_currOffset (by rw [hat.pos]; omega)
        (hfsize ▸ hat.size ▸ f.size_le) hinside
      rw [hat.pos] at hsmall hlt
      cases slots with
      | nil =>
        rw [hfsize, List.flatMap_nil, List.append_nil] at hlt
        exact absurd hlt (Nat.lt_irrefl _)
      | cons s slots =>
        have hs := halike s List.mem_cons_self
        rw [List.flatMap_cons] at hat hfsize
        obtain ⟨f₁, hat₁, hturn⟩ := loadFreeLoop_slot l fuel hat hlt hsmall
        rw [← hs.bytes_eq] at hat
        obtain ⟨f₂, hat₂, hturn'⟩ := loadFreeLoop_slot l fuel hat hlt hsmall
        rw [hs.bytes_eq] at hat₂
        rw [hat₂.unique hat₁] at hturn'
        have hlen : (pre ++ @slotBytes ⟨o⟩ s).length = pre.length + 12 := by
          rw [List.length_append, @slotBytes_length ⟨o⟩]
        have hrest := ih (fun t ht => halike t (List.mem_cons_of_mem s ht))
          (if s = (0, 0) then l else l.emplace s.2 (slotEntry pre.length s).2) hat₁
          (by rw [hfsize, List.append_assoc]) (by omega)
        exact hturn.trans (hrest.trans hturn'.symm)
    · rw [IoManager.loadFreeLoop, IoManager.loadFreeLoop, if_neg hinside, if_neg hinside]

end

section
variable {o : ByteOrder} {im : IoManager} {rs : List IdxRecord} {slots : List Slot}
  {indet indet' : UInt8} {name : Bytes} {options : Options} {db₁ db₂ : DB}

omit [Machine] in
theorem ext_of_start {f g : File} (hbytes : f.bytes = g.bytes) (hpos : f.pos = 1) (hpos' : g.pos = 1) :
    f = g := by
  obtain ⟨fbytes, fpos, _⟩ := f
  obtain ⟨gbytes, gpos, _⟩ := g
  obtain rfl : fbytes = gbytes := hbytes
  obtain rfl : fpos = 1 := hpos
  obtain rfl : gpos = 1 := hpos'
  rfl

theorem FilesOf.idx_opened {f : File} (h : FilesOf o im rs slots) (indet : UInt8)
    (hf : f.bytes = splice 0 im.idx.bytes 0 [machineEndian]) :
    f.bytes = [machineEndian] ++ rs.flatMap (@IdxRecord.bytes ⟨o⟩) ∧ f.size = im.idx.size ∧
      im.idx.bytes.headD indet = @machineEndian ⟨o⟩ := by
  have hbytes : f.bytes = [machineEndian] ++ rs.flatMap (@IdxRecord.bytes ⟨o⟩) := by
    rw [hf, h.idx]
    exact splice_foreign_header _ _
  refine ⟨hbytes, ?_, by rw [h.idx]; rfl⟩
  rw [File.size, File.size, hbytes, h.idx]
  rfl

theorem FilesOf.free_opened {f : File} (h : FilesOf o im rs slots) (indet : UInt8)
    (hf : f.bytes = splice 0 im.free.bytes 0 [machineEndian]) :
    f.bytes = [machineEndian] ++ slots.flatMap (@slotBytes ⟨o⟩) ∧ f.size = im.free.size ∧
      im.free.bytes.headD indet = @machineEndian ⟨o⟩ := by
  have hbytes : f.bytes = [machineEndian] ++ slots.flatMap (@slotBytes ⟨o⟩) := by
    rw [hf, h.free]
    exact splice_foreign_header _ _
  refine ⟨hbytes, ?_, by rw [h.free]; rfl⟩
  rw [File.size, File.size, hbytes, h.free]
  rfl

/-- The second opening finds the index of the first. -/
theorem FilesOf.index_again (h : FilesOf o im rs slots) (halike : ∀ r ∈ rs, r.Alike o)
    (hout : OpenOutcome indet (DB.onFiles name options im) db₁)
    (hout' : OpenOutcome indet' db₁.close db₂) : db₂.ctx.index = db₁.ctx.index := by
  obtain ⟨f, hf, hfpos, hload⟩ := hout.index
  obtain ⟨g, hg, hgpos, hload'⟩ := hout'.index
  obtain ⟨hbytes, hsize, hhead⟩ := h.idx_opened indet hf
  have hkept : db₁.close.im.idx.bytes = [machineEndian] ++ rs.flatMap (@IdxRecord.bytes ⟨o⟩) :=
    (loadIndexLoop_bytes _ _ _ hload).trans hbytes
  have hsize' : db₁.close.im.idx.size = im.idx.size := by
    rw [← hsize, File.size, File.size, hkept, hbytes]
  have hsame : g = f := by
    refine ext_of_start ?_ hgpos hfpos
    rw [hg, hkept, splice_header, hbytes]
  have hhead' : db₁.close.im.idx.bytes.headD indet' = machineEndian := by rw [hkept]; rfl
  have halike := loadIndexLoop_alike indet indet' halike h.keys_le (im.idx.size + 1) ∅
    ⟨hbytes, hfpos⟩ (hsize.symm.trans (congrArg List.length hbytes))
    (show 1 < 2 ^ 31 + 2 ^ 17 by decide)
  rw [hsame, hsize', hhead'] at hload'
  have hfirst : IoManager.loadIndexLoop indet im.idx.size (@machineEndian ⟨o⟩) (im.idx.size + 1) ∅
      f = some (db₁.ctx.index, db₁.im.idx) := hhead ▸ hload
  exact (Prod.mk.inj (Option.some.inj (hload'.symm.trans (halike.symm.trans hfirst)))).1

theorem FilesOf.freeList_again (h : FilesOf o im rs slots) (halike : ∀ s ∈ slots, s.Alike o)
    (hout : OpenOutcome indet (DB.onFiles name options im) db₁)
    (hout' : OpenOutcome indet' db₁.close db₂) : db₂.ctx.freeList = db₁.ctx.freeList := by
  obtain ⟨f, hf, hfpos, hload⟩ := hout.freeList
  obtain ⟨g, hg, hgpos, hload'⟩ := hout'.freeList
  obtain ⟨hbytes, hsize, hhead⟩ := h.free_opened indet hf
  have hkept : db₁.close.im.free.bytes = [machineEndian] ++ slots.flatMap (@slotBytes ⟨o⟩) :=
    (loadFreeLoop_bytes _ _ hload).trans hbytes
  have hsize' : db₁.close.im.free.size = im.free.size := by
    rw [← hsize, File.size, File.size, hkept, hbytes]
  have hsame : g = f := by
    refine ext_of_start ?_ hgpos hfpos
    rw [hg, hkept, splice_header, hbytes]
  have hhead' : db₁.close.im.free.bytes.headD indet' = machineEndian := by rw [hkept]; rfl
  have halike := loadFreeLoop_alike halike (im.free.size + 1) .empty
    ⟨hbytes, hfpos⟩ (hsize.symm.trans (congrArg List.length hbytes))
    (show 1 < 2 ^ 31 + 2 ^ 17 by decide)
  rw [hsame, hsize', hhead'] at hload'
  have hfirst : IoManager.loadFreeLoop im.free.size (@machineEndian ⟨o⟩) (im.free.size + 1) .empty
      f = some (db₁.ctx.freeList, db₁.im.free) := hhead ▸ hload
  exact (Prod.mk.inj (Option.some.inj (hload'.symm.trans (halike.symm.trans hfirst)))).1

theorem FilesOf.idx_size (h : FilesOf o im rs slots)
    (hout : OpenOutcome indet (DB.onFiles name options im) db₁) :
    db₁.im.idx.size = im.idx.size := by
  obtain ⟨f, hf, _, hload⟩ := hout.index
  rw [File.size, loadIndexLoop_bytes _ _ _ hload]
  exact (h.idx_opened indet hf).2.1

/-- After opening, the index file records the index, in the byte order of this machine. -/
theorem FilesOf.indexRecorded (h : FilesOf o im rs slots) (halike : ∀ r ∈ rs, r.Alike o)
    (hsize : im.idx.size < 2 ^ 31) (hout : OpenOutcome indet (DB.onFiles name options im) db₁) :
    db₁.IndexRecorded := by
  obtain ⟨f, hf, hfpos, hload⟩ := hout.index
  obtain ⟨hbytes, hfsize, hhead⟩ := h.idx_opened indet hf
  have hlen : im.idx.size = ([machineEndian] ++ rs.flatMap (@IdxRecord.bytes ⟨o⟩)).length :=
    hfsize.symm.trans (congrArg List.length hbytes)
  have hcount : 1 * rs.length ≤ (rs.flatMap (@IdxRecord.bytes ⟨o⟩)).length :=
    length_le_flatMap (fun r => by rw [@IdxRecord.bytes_length ⟨o⟩]; omega) rs
  obtain ⟨f', hloop, hat⟩ := loadIndexLoop_records indet ∅ hsize h.keys_le ⟨hbytes, hfpos⟩ hlen
    (show rs.length < im.idx.size + 1 by rw [hlen, List.length_append]; omega)
  have hfirst : IoManager.loadIndexLoop indet im.idx.size (@machineEndian ⟨o⟩) (im.idx.size + 1) ∅
      f = some (db₁.ctx.index, db₁.im.idx) := hhead ▸ hload
  obtain ⟨hindex, _⟩ := Prod.mk.inj (Option.some.inj (hfirst.symm.trans hloop))
  refine ⟨rs.map (IdxRecord.reread o), ?_, ?_, ?_⟩
  · rw [loadIndexLoop_bytes _ _ _ hload, hbytes, idxFile, reread_flatMap halike]
  · intro r hr
    obtain ⟨t, ht, rfl⟩ := List.mem_map.mp hr
    exact h.keys_le t ht
  · rw [hindex, validEntries_reread halike]
    have hnodup : (validEntries 1 rs).NodupKeys := by
      rw [List.NodupKeys, validEntries_keys]
      exact h.nodup
    have hperm := foldl_emplaceIndex hnodup fun e _ => AList.notMem_empty e.1
    rw [AList.empty_entries, List.append_nil] at hperm
    exact hperm.symm
end

namespace DB

/-- Where this machine reads the files as the machine that wrote them does, a second opening
finds the index and the free list of the first; and it finds the index held in memory, after
any run that keeps the index file under `2 ^ 31` bytes. -/
theorem open_again {o : ByteOrder} {im : IoManager} {rs : List IdxRecord} {slots : List Slot}
    (h : FilesOf o im rs slots) (halike : (∀ r ∈ rs, r.Alike o) ∧ ∀ s ∈ slots, s.Alike o)
    (name : Bytes) (options : Options) (indet indet' : UInt8) :
    ∃ db₁, (onFiles name options im).open indet = some (.success, db₁) ∧
      (∃ db₂, db₁.close.open indet' = some (.success, db₂) ∧ db₂.ctx.index = db₁.ctx.index ∧
        db₂.ctx.freeList = db₁.ctx.freeList) ∧
      ∀ trace db, Run (Steps DB.apply fun _ op => op.ShortKey) db₁ trace db →
        db.im.idx.size < 2 ^ 31 → ∃ db₂, db.close.open indet' = some (.success, db₂) ∧
          ∀ k, db₂.ctx.index.lookup k = db.ctx.index.lookup k := by
  obtain ⟨db₁, hopen⟩ := open_total indet (onFiles name options im)
  have hout := (open_cases hopen).2
  refine ⟨db₁, hopen, ?_, ?_⟩
  · obtain ⟨db₂, hagain⟩ := open_total indet' db₁.close
    have hout' := (open_cases hagain).2
    exact ⟨db₂, hagain, h.index_again halike.1 hout hout', h.freeList_again halike.2 hout hout'⟩
  · intro trace db hrun hsize
    have hsame : db₁.im.idx.size = im.idx.size := h.idx_size hout
    have hR : db₁.im.idx.size ≤ db.im.idx.size ∧
        (db.im.idx.size < 2 ^ 31 → db.IndexRecorded) := by
      refine hrun.invariant (I := fun db => db₁.im.idx.size ≤ db.im.idx.size ∧
        (db.im.idx.size < 2 ^ 31 → db.IndexRecorded))
        ⟨Nat.le_refl _, fun hsize => h.indexRecorded halike.1 (hsame ▸ hsize) hout⟩ ?_
      rintro s ⟨op, r⟩ s' ⟨hle, hR⟩ ⟨hkey, happly⟩
      refine ⟨hle.trans (idx_size_le happly), fun hsize' => ?_⟩
      have hsize := Nat.lt_of_le_of_lt (idx_size_le happly) hsize'
      exact (hR hsize).apply hsize hkey happly
    obtain ⟨rs', hrec⟩ := hR.2 hsize
    obtain ⟨db₂, hagain⟩ := open_total indet' db.close
    have hout' : OpenOutcome indet' db.close db₂ := (open_cases hagain).2
    have hclosed : Recorded db.close.im.idx.bytes db.ctx.index rs' := hrec
    have hperm := (hclosed.reopen hsize rfl hout').1
    exact ⟨db₂, hagain, fun k => AList.perm_lookup hperm⟩

end DB

end

section
attribute [local instance] littleEndian

/-- An index file of a big-endian machine with the given records, next to an unused slot. -/
def bigEndianFiles (rs : List IdxRecord) (h : (@idxFile ⟨.big⟩ rs).length ≤ OFF_MAX) : IoManager where
  dat := .empty
  idx := ⟨@idxFile ⟨.big⟩ rs, 0, h⟩
  free := ⟨@freeFile ⟨.big⟩ [(0, 0)], 0, by simp only [OFF_MAX]; decide⟩

/-- An empty value under the empty key, and an erased record. -/
theorem DB.open_again_foreign : ∃ db₁,
    (DB.onFiles [] {} (bigEndianFiles [⟨true, [], 0, 0⟩, ⟨false, [], 5, 7⟩] (by decide))).open 0 =
        some (.success, db₁) ∧
      ∃ db₂, db₁.close.open 0 = some (.success, db₂) ∧ db₂.ctx.index = db₁.ctx.index := by
  have hfiles : FilesOf .big (bigEndianFiles [⟨true, [], 0, 0⟩, ⟨false, [], 5, 7⟩] (by decide))
      [⟨true, [], 0, 0⟩, ⟨false, [], 5, 7⟩] [(0, 0)] := by
    constructor
    · rfl
    · rfl
    · decide
    · decide
  obtain ⟨db₁, hopen, ⟨db₂, hagain, hindex, _⟩, _⟩ :=
    DB.open_again hfiles ⟨by decide, List.forall_mem_singleton.mpr (by decide)⟩ [] {} 0 0
  exact ⟨db₁, hopen, db₂, hagain, hindex⟩

/-- The key length 1 of the other byte order is taken for 256 at the second opening. -/
theorem DB.open_again_not :
    FilesOf .big (bigEndianFiles [⟨true, [97], 0, 1⟩] (by decide)) [⟨true, [97], 0, 1⟩] [(0, 0)] ∧
      ∃ t ∈ (DB.onFiles [] {} (bigEndianFiles [⟨true, [97], 0, 1⟩] (by decide))).open 0,
        t.2.ctx.index.lookup [97] = some ⟨0, 1, 3⟩ ∧
        ∃ u ∈ t.2.close.open 0, u.2.ctx.index.lookup [97] = none := by
  constructor
  · constructor
    · rfl
    · rfl
    · decide
    · decide
  · decide

end

end Ambry
