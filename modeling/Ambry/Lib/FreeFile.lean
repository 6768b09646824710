import Ambry.Foundation.Records
import Ambry.Lib.Opening
import Ambry.Lib.Outcome
import Ambry.Lib.Reading

/-!
# The free-list file

The free-list file as a list of slots of twelve bytes. A slot of zero bytes is
unused. Giving an extent back appends a slot; recycling an extent clears its slot
and appends one for the rest.
-/

namespace Ambry

open Foundation

abbrev Slot := UInt64 × UInt32

section
variable [Machine]

def slotBytes (s : Slot) : Bytes := IoManager.freeRecord s.1 s.2

theorem slotBytes_length (s : Slot) : (slotBytes s).length = 12 := by
  rw [slotBytes, IoManager.freeRecord, List.length_append, image_length, image_length]
  rfl

theorem slotBytes_zero : slotBytes (0, 0) = List.replicate 12 0 := by
  rw [slotBytes, IoManager.freeRecord]
  cases Machine.order <;> rfl

theorem slots_length (slots : List Slot) :
    (slots.flatMap slotBytes).length = 12 * slots.length := by
  induction slots with
  | nil => rfl
  | cons s slots ih =>
    rw [List.flatMap_cons, List.length_append, slotBytes_length, ih, List.length_cons]
    omega

omit [Machine] in
def slotEntry (p : Nat) (s : Slot) : UInt32 × FreeEntry := (s.2, ⟨s.1, UInt32.ofNat p⟩)

/-- The entries of the slots in use, of a file whose first slot begins at `start`. -/
def fileEntries (start : Nat) (slots : List Slot) : List (UInt32 × FreeEntry) :=
  ((placed slotBytes start slots).filter fun e => e.2 ≠ (0, 0)).map fun e => slotEntry e.1 e.2

def freeFile (slots : List Slot) : Bytes := [machineEndian] ++ slots.flatMap slotBytes

theorem freeFile_length (slots : List Slot) : (freeFile slots).length = 1 + 12 * slots.length := by
  rw [freeFile, List.length_append, slots_length]
  rfl

theorem freeFile_append (slots : List Slot) (s : Slot) :
    freeFile (slots ++ [s]) = freeFile slots ++ IoManager.freeRecord s.1 s.2 := by
  rw [freeFile, List.flatMap_append, List.flatMap_singleton, ← List.append_assoc]
  rfl

theorem fileEntries_append (start : Nat) (slots more : List Slot) :
    fileEntries start (slots ++ more) = fileEntries start slots ++
      fileEntries (start + 12 * slots.length) more := by
  rw [fileEntries, placed_append, List.filter_append, List.map_append, slots_length]
  rfl

theorem fileEntries_cons (start : Nat) (s : Slot) (slots : List Slot) :
    fileEntries start (s :: slots) = (if s = (0, 0) then [] else [slotEntry start s]) ++
      fileEntries (start + 12) slots := by
  rw [fileEntries, placed, List.filter_cons, slotBytes_length]
  by_cases hs : s = (0, 0)
  · rw [if_pos hs, if_neg (by simpa using hs)]
    rfl
  · rw [if_neg hs, if_pos (by simpa using hs)]
    rfl

theorem mem_fileEntries {start : Nat} {slots : List Slot} {entry : UInt32 × FreeEntry}
    (h : entry ∈ fileEntries start slots) :
    ∃ pre post, slots = pre ++ (entry.2.offset, entry.1) :: post ∧
      (entry.2.offset, entry.1) ≠ (0, 0) ∧
      entry = slotEntry (start + 12 * pre.length) (entry.2.offset, entry.1) := by
  obtain ⟨⟨p, s⟩, hmem, rfl⟩ := List.mem_map.mp h
  obtain ⟨hplaced, hused⟩ := List.mem_filter.mp hmem
  obtain ⟨pre, post, hslots, rfl⟩ := mem_placed.mp hplaced
  refine ⟨pre, post, hslots, of_decide_eq_true hused, ?_⟩
  rw [slots_length]
  rfl

theorem zeroSlot_freeFile {pre post : List Slot} {s : Slot} {slot : UInt32}
    (hslot : slot.toNat = 1 + 12 * pre.length) :
    zeroSlot (freeFile (pre ++ s :: post)) slot = freeFile (pre ++ (0, 0) :: post) := by
  have hfront : slot.toNat = [machineEndian].length + (pre.flatMap slotBytes).length := by
    rw [hslot, slots_length]
    rfl
  rw [zeroSlot, hfront, ← slotBytes_zero]
  exact splice_whole_record (by rw [slotBytes_length, slotBytes_length])

/-- An allocation that recycles `entry`, whose slot stands between `pre` and `post`. -/
structure Recycled (l l' : FreeList) (slots : List Slot) (file' : Bytes) (n : Nat) (pos : UInt64)
    (entry : UInt32 × FreeEntry) (pre post : List Slot) : Prop where
  first : RW.firstLonger l n = some entry
  pos_eq : pos = entry.2.offset
  slots_eq : slots = pre ++ (entry.2.offset, entry.1) :: post
  entry_eq : entry = slotEntry (1 + 12 * pre.length) (entry.2.offset, entry.1)
  file_eq : file' =
    freeFile (pre ++ (0, 0) :: post ++ [(restOffset entry n, restLength entry n)])
  list_eq : l' = (l.erase entry.1).emplace (restLength entry n)
    ⟨restOffset entry n, UInt32.ofNat (1 + 12 * slots.length)⟩

theorem Recycled.length_ne_zero {l l' : FreeList} {slots : List Slot} {file' : Bytes} {n : Nat}
    {pos : UInt64} {entry : UInt32 × FreeEntry} {pre post : List Slot}
    (h : Recycled l l' slots file' n pos entry pre post) : entry.1 ≠ 0 := by
  intro hzero
  have hlt := firstLonger_lt h.first
  rw [hzero] at hlt
  exact absurd hlt (Nat.not_lt_zero n)

theorem Recycled.file_perm {l l' : FreeList} {slots : List Slot} {file' : Bytes} {n : Nat}
    {pos : UInt64} {entry : UInt32 × FreeEntry} {pre post : List Slot}
    (h : Recycled l l' slots file' n pos entry pre post) :
    (fileEntries 1 slots).Perm (entry :: fileEntries 1 (pre ++ (0, 0) :: post)) := by
  have hused : (entry.2.offset, entry.1) ≠ (0, 0) :=
    fun heq => h.length_ne_zero (Prod.ext_iff.mp heq).2
  rw [h.slots_eq, fileEntries_append, fileEntries_append, fileEntries_cons, fileEntries_cons,
    if_neg hused, if_pos rfl, ← h.entry_eq]
  exact List.perm_middle

theorem Recycled.count {l l' : FreeList} {slots : List Slot} {file' : Bytes} {n : Nat}
    {pos : UInt64} {entry : UInt32 × FreeEntry} {pre post : List Slot}
    (h : Recycled l l' slots file' n pos entry pre post) :
    slots.length = (pre ++ (0, 0) :: post).length := by
  rw [h.slots_eq, List.length_append, List.length_append, List.length_cons, List.length_cons]

/-- Every entry of positive length has its slot in the file. -/
def RecordedIn (l : FreeList) (slots : List Slot) : Prop :=
  ∀ entry ∈ l.entries, entry.1 ≠ 0 → entry ∈ fileEntries 1 slots

theorem RecordedIn.emplace {l : FreeList} {slots : List Slot} (h : RecordedIn l slots)
    (offset : UInt64) (length : UInt32) :
    RecordedIn (l.emplace length ⟨offset, UInt32.ofNat (1 + 12 * slots.length)⟩)
      (slots ++ [(offset, length)]) := by
  intro entry hmem hne
  rw [fileEntries_append]
  obtain rfl | hmem := Foundation.Multimap.mem_emplace.mp hmem
  · have hused : (offset, length) ≠ (0, 0) := fun heq => hne (Prod.ext_iff.mp heq).2
    rw [fileEntries_cons, if_neg hused]
    exact List.mem_append_right _ (List.mem_append_left _ (List.mem_singleton.mpr rfl))
  · exact List.mem_append_left _ (h entry hmem hne)

theorem RecordedIn.recycle {l l' : FreeList} {slots : List Slot} {file' : Bytes} {n : Nat}
    {pos : UInt64} {entry : UInt32 × FreeEntry} {pre post : List Slot} (h : RecordedIn l slots)
    (hrec : Recycled l l' slots file' n pos entry pre post) :
    RecordedIn l' (pre ++ (0, 0) :: post ++ [(restOffset entry n, restLength entry n)]) := by
  have hrest : RecordedIn (l.erase entry.1) (pre ++ (0, 0) :: post) := by
    intro other hmem hne
    obtain ⟨hmem, hother⟩ := Foundation.Multimap.mem_erase.mp hmem
    obtain rfl | hkept := List.mem_cons.mp (hrec.file_perm.mem_iff.mp (h other hmem hne))
    · exact absurd rfl hother
    · exact hkept
  rw [hrec.list_eq, hrec.count]
  exact hrest.emplace _ _

theorem Allocated.slots {l l' : FreeList} {slots : List Slot} {file' : Bytes} {n : Nat}
    {pos : UInt64} (h : Allocated l (freeFile slots) n pos l' file')
    (hrecorded : RecordedIn l slots) (hsize : (freeFile slots).length < 2 ^ 31) :
    (pos = npos ∧ l' = l ∧ file' = freeFile slots) ∨
      ∃ entry pre post, Recycled l l' slots file' n pos entry pre post := by
  cases h with
  | atEnd hfind => exact .inl ⟨rfl, rfl, rfl⟩
  | recycled entry hfind =>
    have hlt := firstLonger_lt hfind
    have hne : entry.1 ≠ 0 := by
      intro hzero
      rw [hzero] at hlt
      exact absurd hlt (Nat.not_lt_zero n)
    obtain ⟨pre, post, hslots, _, hentry⟩ :=
      mem_fileEntries (hrecorded entry (firstLonger_mem hfind) hne)
    have hcount : slots.length = pre.length + (post.length + 1) := by
      rw [hslots, List.length_append, List.length_cons]
    rw [freeFile_length] at hsize
    have hslot : entry.2.freeListOffset.toNat = 1 + 12 * pre.length := by
      rw [hentry]
      simp only [slotEntry]
      rw [UInt32.toNat_ofNat', Nat.mod_eq_of_lt (by omega)]
    have hzero : zeroSlot (freeFile slots) entry.2.freeListOffset =
        freeFile (pre ++ (0, 0) :: post) := by
      rw [hslots, zeroSlot_freeFile hslot]
    have hlen : (freeFile (pre ++ (0, 0) :: post)).length = 1 + 12 * slots.length := by
      rw [freeFile_length, hcount, List.length_append, List.length_cons]
    refine .inr ⟨entry, pre, post, hfind, rfl, hslots, hentry, ?_, ?_⟩
    · rw [hzero, freeFile_append]
    · rw [hzero, hlen]

/-- The free list that is built from the slots of a file. -/
def loadedFree (slots : List Slot) : FreeList :=
  (fileEntries 1 slots).foldl (fun l e => l.emplace e.1 e.2) .empty

theorem loadedFree_perm (slots : List Slot) :
    (loadedFree slots).entries.Perm (fileEntries 1 slots) := by
  have hperm := Foundation.Multimap.foldl_emplace_perm (.empty : FreeList) (fileEntries 1 slots)
  rwa [Foundation.Multimap.entries_empty, List.append_nil] at hperm

variable {indet : UInt8} {f : File} {pre : Bytes} {l : FreeList} {slots : List Slot}

theorem loadFreeLoop_slot {o : ByteOrder} {s : Slot} {post : Bytes} {fsize : Nat} (l : FreeList)
    (fuel : Nat) (hat : f.At pre (@slotBytes ⟨o⟩ s ++ post)) (hinside : pre.length < fsize)
    (hsmall : pre.length < 2 ^ 31) :
    ∃ f', f'.At (pre ++ @slotBytes ⟨o⟩ s) post ∧
      IoManager.loadFreeLoop fsize (@machineEndian ⟨o⟩) (fuel + 1) l f =
        IoManager.loadFreeLoop fsize (@machineEndian ⟨o⟩) fuel
          (if s = (0, 0) then l else l.emplace s.2 (slotEntry pre.length s).2) f' := by
  rw [IoManager.loadFreeLoop, hat.currOffset_eq hsmall, if_pos hinside]
  have hbytes : pre ++ @slotBytes ⟨o⟩ s = pre ++ image o s.1 ++ image o s.2 := by
    simp only [slotBytes, IoManager.freeRecord, List.append_assoc]
  simp only [slotBytes, IoManager.freeRecord, List.append_assoc] at hat
  obtain ⟨f₁, h₁, hat₁⟩ := hat.readN
  obtain ⟨f₂, h₂, hat₂⟩ := hat₁.readN
  refine ⟨f₂, hbytes ▸ hat₂, ?_⟩
  simp only [h₁, h₂, hat.pos]
  by_cases hs : s = (0, 0)
  · rw [if_pos hs, if_pos (Prod.ext_iff.mp hs)]
  · rw [if_neg hs, if_neg fun h => hs (Prod.ext h.1 h.2)]
    rfl

theorem loadFreeLoop_slots {o : ByteOrder} (l : FreeList) {fsize : Nat} (hsize : fsize < 2 ^ 31)
    {fuel : Nat} (hat : f.At pre (slots.flatMap (@slotBytes ⟨o⟩)))
    (hfsize : fsize = (pre ++ slots.flatMap (@slotBytes ⟨o⟩)).length)
    (hfuel : slots.length < fuel) :
    ∃ f', IoManager.loadFreeLoop fsize (@machineEndian ⟨o⟩) fuel l f =
        some ((fileEntries pre.length slots).foldl (fun l e => l.emplace e.1 e.2) l, f') ∧
      f'.At (pre ++ slots.flatMap (@slotBytes ⟨o⟩)) [] := by
  obtain ⟨fuel, rfl⟩ := Nat.exists_eq_succ_of_ne_zero (Nat.ne_zero_of_lt hfuel)
  induction slots generalizing fuel f pre l with
  | nil =>
    rw [List.flatMap_nil, List.append_nil] at hfsize ⊢
    refine ⟨f, ?_, hat⟩
    rw [IoManager.loadFreeLoop, hat.currOffset_eq (by omega), if_neg (by omega)]
    rfl
  | cons s slots ih =>
    rw [List.flatMap_cons] at hat hfsize ⊢
    rw [← List.append_assoc] at hfsize ⊢
    rw [List.length_cons] at hfuel
    obtain ⟨fuel, rfl⟩ := Nat.exists_eq_succ_of_ne_zero (show fuel ≠ 0 by omega)
    have hinside : pre.length < fsize := by
      rw [hfsize, List.length_append, List.length_append, @slotBytes_length ⟨o⟩]
      omega
    obtain ⟨f₁, hat₁, hturn⟩ := loadFreeLoop_slot l (fuel + 1) hat hinside (hinside.trans hsize)
    obtain ⟨f₂, hloop, hat₂⟩ := ih _ hat₁ hfsize fuel (by omega)
    refine ⟨f₂, hturn.trans (hloop.trans ?_), hat₂⟩
    rw [fileEntries_cons, List.length_append, @slotBytes_length ⟨o⟩, List.foldl_append]
    by_cases hs : s = (0, 0)
    · rw [if_pos hs, if_pos hs]
      rfl
    · rw [if_neg hs, if_neg hs]
      rfl

end

end Ambry
