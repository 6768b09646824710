import Ambry.Foundation.Records
import Ambry.Lib.Outcome
import Ambry.Lib.Reading

/-!
# The index file

The index file as a list of records. Appending a record, clearing a validity
byte and overwriting the last twelve bytes of a record are the three ways the
file is written; each changes one record and moves none. The file records an
index when its valid records are the entries of the index.
-/

namespace Ambry

open Foundation

abbrev IndexEntries := List (Sigma fun _ : Bytes => IndexData)

theorem filter_key_of_perm {l : IndexEntries} {index : Index} (h : l.Perm index.entries) (k : Bytes) :
    l.filter (fun e => e.1 = k) = (index.lookup k).toList.map fun data => ⟨k, data⟩ := by
  cases hk : index.lookup k with
  | none =>
    refine List.filter_eq_nil_iff.mpr fun e he => ?_
    have hmem : e.1 ∈ index := List.mem_keys_of_mem (h.mem_iff.mp he)
    have hne : e.1 ≠ k := fun heq => AList.lookup_eq_none.mp hk (heq ▸ hmem)
    simpa using hne
  | some data =>
    obtain ⟨before, after, rfl⟩ := List.append_of_mem (h.mem_iff.mpr (AList.mem_lookup_iff.mp hk))
    have hmiddle : List.Perm (before ++ ⟨k, data⟩ :: after) (⟨k, data⟩ :: (before ++ after)) :=
      List.perm_middle
    have hother := (List.nodupKeys_cons.mp
      ((List.perm_nodupKeys (hmiddle.symm.trans h)).mpr index.nodupKeys)).1
    have hnil : (before ++ after).filter (fun e => e.1 = k) = [] := by
      refine List.filter_eq_nil_iff.mpr fun e he => ?_
      have hmem : e.1 ∈ (before ++ after).keys := List.mem_keys_of_mem he
      have hne : e.1 ≠ k := by
        rintro rfl
        exact hother hmem
      simpa using hne
    have hfilter := hmiddle.filter fun e => e.1 = k
    rw [List.filter_cons_of_pos (by simp), hnil] at hfilter
    exact List.perm_singleton.mp hfilter

structure IdxRecord where
  valid : Bool
  key : Bytes
  offset : UInt64
  length : UInt32

namespace IdxRecord
variable [Machine]

def bytes (r : IdxRecord) : Bytes :=
  IoManager.record (if r.valid then 1 else 0) r.key r.offset r.length

theorem bytes_length (r : IdxRecord) : r.bytes.length = r.key.length + 15 := by
  simp only [bytes, IoManager.record, List.length_append, image_length, List.length_singleton,
    Scalar.width]
  omega

omit [Machine] in
def entry (p : Nat) (r : IdxRecord) : Sigma fun _ : Bytes => IndexData :=
  ⟨r.key, { offset := r.offset, length := r.length, idxOffset := UInt32.ofNat (p + 2) }⟩

end IdxRecord

/-- The entries of the valid records of a file whose first record begins at `start`. -/
def validEntries [Machine] (start : Nat) (rs : List IdxRecord) : IndexEntries :=
  ((placed IdxRecord.bytes start rs).filter fun e => e.2.valid).map fun e => e.2.entry e.1

def idxFile [Machine] (rs : List IdxRecord) : Bytes := [machineEndian] ++ rs.flatMap IdxRecord.bytes

section
variable [Machine]

theorem validEntries_append (start : Nat) (rs ts : List IdxRecord) :
    validEntries start (rs ++ ts) = validEntries start rs ++
      validEntries (start + (rs.flatMap IdxRecord.bytes).length) ts := by
  rw [validEntries, placed_append, List.filter_append, List.map_append]
  rfl

theorem validEntries_cons (start : Nat) (r : IdxRecord) (rs : List IdxRecord) :
    validEntries start (r :: rs) = (if r.valid then [r.entry start] else []) ++
      validEntries (start + r.bytes.length) rs := by
  rw [validEntries, placed, List.filter_cons]
  split
  · rfl
  · rfl

theorem mem_validEntries {start : Nat} {rs : List IdxRecord} {key : Bytes} {data : IndexData}
    (h : ⟨key, data⟩ ∈ validEntries start rs) :
    ∃ pre r post, rs = pre ++ r :: post ∧ r.valid = true ∧ r.key = key ∧
      data = ⟨r.offset, r.length,
        UInt32.ofNat (start + (pre.flatMap IdxRecord.bytes).length + 2)⟩ := by
  obtain ⟨⟨p, r⟩, hmem, heq⟩ := List.mem_map.mp h
  obtain ⟨hplaced, hvalid⟩ := List.mem_filter.mp hmem
  obtain ⟨pre, post, hrs, rfl⟩ := mem_placed.mp hplaced
  cases heq
  exact ⟨pre, r, post, hrs, hvalid, rfl, rfl⟩

/-- The file holds exactly the entries of the index. -/
structure Recorded (file : Bytes) (index : Index) (rs : List IdxRecord) : Prop where
  file_eq : file = idxFile rs
  keys_le : ∀ r ∈ rs, r.key.length ≤ 65535
  entries : (validEntries 1 rs).Perm index.entries

variable {file file' : Bytes} {index : Index} {rs : List IdxRecord} {key : Bytes} {data : IndexData}

theorem recorded_empty : Recorded [machineEndian] ∅ [] := ⟨rfl, by simp, .refl _⟩

theorem Recorded.insert (h : Recorded file index rs) (data : IndexData) (hkey : key ∉ index)
    (hlen : key.length ≤ 65535)
    (hfile : file' = file ++ IoManager.record 1 key data.offset data.length)
    (hoffset : data.idxOffset = UInt32.ofNat (file.length + 2)) :
    Recorded file' (index.insert key data) (rs ++ [⟨true, key, data.offset, data.length⟩]) where
  file_eq := by
    rw [hfile, h.file_eq, idxFile, idxFile, List.flatMap_append, List.flatMap_singleton,
      List.append_assoc]
    rfl
  keys_le r hr := by
    obtain hr | hr := List.mem_append.mp hr
    · exact h.keys_le r hr
    · exact List.mem_singleton.mp hr ▸ hlen
  entries := by
    have hend : 1 + (rs.flatMap IdxRecord.bytes).length = file.length := by
      rw [h.file_eq, idxFile, List.length_append, List.length_singleton]
    rw [AList.entries_insert_of_notMem hkey, validEntries_append, validEntries_cons, hend]
    refine (List.perm_append_comm.trans ?_)
    simp only [if_true, IdxRecord.entry, ← hoffset]
    exact h.entries.cons _

structure Recorded.Slot (file : Bytes) (index : Index) (key : Bytes) (data : IndexData)
    (pre : List IdxRecord) (r : IdxRecord) (post : List IdxRecord) : Prop where
  recorded : Recorded file index (pre ++ r :: post)
  valid : r.valid = true
  key_eq : r.key = key
  data_eq : data = ⟨r.offset, r.length, UInt32.ofNat (1 + (pre.flatMap IdxRecord.bytes).length + 2)⟩

theorem Recorded.slot (h : Recorded file index rs) (hdata : index.lookup key = some data) :
    ∃ pre r post, Slot file index key data pre r post := by
  have hmem := h.entries.mem_iff.mpr (AList.mem_lookup_iff.mp hdata)
  obtain ⟨pre, r, post, rfl, hvalid, hkey, heq⟩ := mem_validEntries hmem
  exact ⟨pre, r, post, h, hvalid, hkey, heq⟩

namespace Recorded.Slot
variable {pre post : List IdxRecord} {r r' : IdxRecord} {old : IndexData}

theorem idxOffset_eq (h : Slot file index key old pre r post) (hsize : file.length < 2 ^ 31) :
    old.idxOffset.toNat = 1 + (pre.flatMap IdxRecord.bytes).length + 2 := by
  have hlen := congrArg List.length h.recorded.file_eq
  rw [idxFile, flatMap_middle, List.length_append, List.length_append, List.length_append,
    r.bytes_length, List.length_singleton] at hlen
  rw [h.data_eq, UInt32.toNat_ofNat', Nat.mod_eq_of_lt (by omega)]

theorem others_perm (h : Slot file index key old pre r post) :
    (validEntries 1 pre ++
        validEntries (1 + (pre.flatMap IdxRecord.bytes).length + r.bytes.length) post).Perm
      (index.erase key).entries := by
  have hperm := h.recorded.entries
  rw [validEntries_append, validEntries_cons, if_pos h.valid, List.singleton_append] at hperm
  have hcons := List.perm_middle.symm.trans hperm
  have herase := hcons.kerase (a := key) ((List.perm_nodupKeys hcons).mpr index.nodupKeys)
  rwa [List.kerase_cons_eq h.key_eq.symm] at herase

theorem keys_le (h : Slot file index key old pre r post) (hkey : r'.key = key) :
    ∀ t ∈ pre ++ r' :: post, t.key.length ≤ 65535 := by
  have hall := h.recorded.keys_le
  intro t ht
  obtain ht | ht := List.mem_append.mp ht
  · exact hall t (List.mem_append_left _ ht)
  obtain rfl | ht := List.mem_cons.mp ht
  · rw [hkey, ← h.key_eq]
    exact hall r (List.mem_append_right _ List.mem_cons_self)
  · exact hall t (List.mem_append_right _ (List.mem_cons_of_mem r ht))

theorem erase (h : Slot file index key old pre r post) (hsize : file.length < 2 ^ 31)
    (hfile : file' = splice 0 file old.idxOffset.toNat [0]) :
    Recorded file' (index.erase key) (pre ++ { r with valid := false } :: post) where
  file_eq := by
    have hfront : old.idxOffset.toNat = [machineEndian].length +
        (pre.flatMap IdxRecord.bytes).length +
        (image Machine.order (UInt16.ofNat r.key.length)).length := by
      rw [h.idxOffset_eq hsize, image_length]
      rfl
    rw [hfile, hfront, h.recorded.file_eq]
    have hr : r.bytes = image Machine.order (UInt16.ofNat r.key.length) ++ [1] ++
        (r.key ++ image Machine.order r.offset ++ image Machine.order r.length) := by
      simp [IdxRecord.bytes, IoManager.record, h.valid]
    have hr' : { r with valid := false }.bytes =
        image Machine.order (UInt16.ofNat r.key.length) ++ [0] ++
          (r.key ++ image Machine.order r.offset ++ image Machine.order r.length) := by
      simp [IdxRecord.bytes, IoManager.record]
    exact splice_record hr hr' rfl
  keys_le := h.keys_le h.key_eq
  entries := by
    have hperm := h.others_perm
    rw [validEntries_append, validEntries_cons]
    rw [IdxRecord.bytes_length] at hperm ⊢
    exact hperm

theorem update (h : Slot file index key old pre r post) (hsize : file.length < 2 ^ 31)
    {offset : UInt64} {length : UInt32}
    (hfile : file' = splice 0 file (old.idxOffset.toNat + key.length + 1)
      (image Machine.order offset ++ image Machine.order length)) :
    Recorded file' (index.insert key { old with offset, length })
      (pre ++ { r with offset, length } :: post) where
  file_eq := by
    have hr : r.bytes = (image Machine.order (UInt16.ofNat r.key.length) ++ [1] ++ r.key) ++
        (image Machine.order r.offset ++ image Machine.order r.length) ++ [] := by
      simp [IdxRecord.bytes, IoManager.record, h.valid]
    have hfront : old.idxOffset.toNat + key.length + 1 = [machineEndian].length +
        (pre.flatMap IdxRecord.bytes).length +
        (image Machine.order (UInt16.ofNat r.key.length) ++ [1] ++ r.key).length := by
      rw [h.idxOffset_eq hsize, List.length_append, List.length_append, image_length, ← h.key_eq]
      simp only [List.length_singleton, Scalar.width]
      omega
    rw [hfile, hfront, h.recorded.file_eq]
    refine splice_record hr ?_ (by simp)
    simp [IdxRecord.bytes, IoManager.record, h.valid]
  keys_le := h.keys_le h.key_eq
  entries := by
    have hperm := h.others_perm
    rw [AList.entries_insert, validEntries_append, validEntries_cons,
      if_pos (show IdxRecord.valid { r with offset, length } = true from h.valid)]
    rw [IdxRecord.bytes_length] at hperm ⊢
    apply List.perm_middle.trans
    have hentry : IdxRecord.entry (1 + (pre.flatMap IdxRecord.bytes).length)
        { r with offset, length } = ⟨key, { old with offset, length }⟩ := by
      rw [IdxRecord.entry, h.data_eq, ← h.key_eq]
    rw [hentry]
    exact hperm.cons _

end Recorded.Slot

end

end Ambry
