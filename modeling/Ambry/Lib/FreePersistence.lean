import Ambry.Foundation.Run
import Ambry.Lib.FreeFile

/-!
# The free list and its file

Erasing a key adds one entry to the free list and one slot to the file. Recycling
an entry clears one slot, but drops from memory every entry of that length, so
the two stay in step only while the recycled length occurs once.
-/

namespace Ambry

open Foundation

def reusable (entries : List (UInt32 × FreeEntry)) : List (UInt32 × FreeEntry) :=
  entries.filter fun entry => entry.1 ≠ 0

theorem mem_reusable {entries : List (UInt32 × FreeEntry)} {entry : UInt32 × FreeEntry} :
    entry ∈ reusable entries ↔ entry ∈ entries ∧ entry.1 ≠ 0 := by
  simp [reusable]

/-- The entry found for `n` bytes is the only one of its length. -/
def SoleOfLength (l : FreeList) (n : Nat) : Prop :=
  ∀ entry ∈ RW.firstLonger l n, (l.entries.filter fun other => other.1 = entry.1).length = 1

instance (l : FreeList) (n : Nat) : Decidable (SoleOfLength l n) :=
  inferInstanceAs (Decidable (∀ entry ∈ RW.firstLonger l n, _ = 1))

theorem SoleOfLength.erase_perm {l : FreeList} {n : Nat} {entry : UInt32 × FreeEntry}
    (h : SoleOfLength l n) (hfind : RW.firstLonger l n = some entry) :
    l.entries.Perm (entry :: (l.erase entry.1).entries) := by
  obtain ⟨rest, hperm, _⟩ := Foundation.Multimap.erase_subperm (firstLonger_mem hfind)
  have hcount := (hperm.filter fun other => other.1 = entry.1).length_eq
  rw [h entry hfind, List.filter_cons_of_pos (by simp), List.length_cons] at hcount
  have hnone := List.length_eq_zero_iff.mp (Nat.succ_inj.mp hcount.symm)
  have hother : ∀ other ∈ rest, other.1 ≠ entry.1 := by
    intro other hmem
    simpa using List.filter_eq_nil_iff.mp hnone other hmem
  exact hperm.trans ((Foundation.Multimap.erase_perm hperm hother).symm.cons entry)

section
variable [Machine] {l l' : FreeList} {slots : List Slot} {file file' : Bytes}

/-- The file holds the entries of the free list, up to entries of length 0. -/
structure FreeRecorded (l : FreeList) (file : Bytes) (slots : List Slot) : Prop where
  file_eq : file = freeFile slots
  entries : (reusable l.entries).Perm (reusable (fileEntries 1 slots))

theorem reusable_append_slot (start : Nat) (slots : List Slot) (s : Slot) :
    reusable (fileEntries start (slots ++ [s])) = reusable (fileEntries start slots) ++
      reusable [slotEntry (start + 12 * slots.length) s] := by
  rw [fileEntries_append, fileEntries_cons, reusable, List.filter_append]
  by_cases hs : s = (0, 0)
  · subst hs
    rfl
  · rw [if_neg hs]
    rfl

theorem FreeRecorded.emplace {offset : UInt64} {length : UInt32}
    (hentries : (reusable l.entries).Perm (reusable (fileEntries 1 slots))) :
    FreeRecorded (l.emplace length ⟨offset, UInt32.ofNat (1 + 12 * slots.length)⟩)
      (freeFile slots ++ IoManager.freeRecord offset length) (slots ++ [(offset, length)]) where
  file_eq := (freeFile_append slots (offset, length)).symm
  entries := by
    rw [reusable_append_slot]
    apply ((l.emplace_perm _ _).filter _).trans
    rw [← List.singleton_append, List.filter_append]
    exact List.perm_append_comm.trans (hentries.append_right _)

theorem FreeRecorded.recorded (h : FreeRecorded l file slots) : RecordedIn l slots := by
  intro entry hmem hne
  exact (mem_reusable.mp (h.entries.mem_iff.mp (mem_reusable.mpr ⟨hmem, hne⟩))).1

theorem FreeRecorded.recycle {n : Nat} {pos : UInt64} {entry : UInt32 × FreeEntry}
    {pre post : List Slot} (h : FreeRecorded l file slots)
    (hrec : Recycled l l' slots file' n pos entry pre post) (hsole : SoleOfLength l n) :
    FreeRecorded l' file' (pre ++ (0, 0) :: post ++ [(restOffset entry n, restLength entry n)]) := by
  have hentries : (reusable (l.erase entry.1).entries).Perm
      (reusable (fileEntries 1 (pre ++ (0, 0) :: post))) := by
    have hlist := (hsole.erase_perm hrec.first).filter fun e => e.1 ≠ 0
    have hfile := hrec.file_perm.filter fun e => e.1 ≠ 0
    rw [List.filter_cons_of_pos (by simpa using hrec.length_ne_zero)] at hlist hfile
    exact ((hlist.symm.trans h.entries).trans hfile).cons_inv
  rw [hrec.list_eq, hrec.file_eq, freeFile_append, hrec.count]
  exact FreeRecorded.emplace hentries

theorem FreeRecorded.allocate {n : Nat} {pos : UInt64} (h : FreeRecorded l file slots)
    (halloc : Allocated l file n pos l' file') (hsize : file.length < 2 ^ 31)
    (hsole : SoleOfLength l n) :
    ∃ slots', FreeRecorded l' file' slots' ∧ slots'.length ≤ slots.length + 1 := by
  have hfile := h.file_eq
  subst hfile
  obtain ⟨_, rfl, rfl⟩ | ⟨entry, pre, post, hrec⟩ := halloc.slots h.recorded hsize
  · exact ⟨slots, h, Nat.le_succ _⟩
  · refine ⟨_, h.recycle hrec hsole, ?_⟩
    rw [List.length_append, hrec.count]
    exact Nat.le_refl _

theorem FreeRecorded.loadFree {im : IoManager} (h : FreeRecorded l im.free.bytes slots)
    (hsize : im.free.size < 2 ^ 31) (indet : UInt8) (ctx : DBContext)
    (hempty : ctx.freeList = .empty) :
    ∃ ctx' im', IoManager.loadFree indet ctx im.openFiles = some (.success, ctx', im') ∧
      (reusable ctx'.freeList.entries).Perm (reusable l.entries) := by
  obtain ⟨f, hendian, hbytes, hpos⟩ := handleEndian_header indet h.file_eq
  have hat : f.At [machineEndian] (slots.flatMap slotBytes) := ⟨hbytes.trans h.file_eq, hpos⟩
  have hlen : im.free.size = 1 + 12 * slots.length := by
    rw [File.size, h.file_eq, freeFile_length]
  obtain ⟨f', hloop, _⟩ := loadFreeLoop_slots .empty hsize hat
    (congrArg List.length h.file_eq) (show slots.length < im.free.size + 1 by omega)
  refine ⟨{ ctx with freeList := loadedFree slots }, { im.openFiles with free := f' }, ?_, ?_⟩
  · refine Option.bind_eq_some_iff.mpr ⟨_, hendian, ?_⟩
    rw [hempty]
    exact Option.bind_eq_some_iff.mpr ⟨_, hloop, rfl⟩
  · exact ((loadedFree_perm slots).filter _).trans h.entries.symm

end

namespace DB

/-- The operation recycles no entry whose length occurs twice in the free list. -/
def RecyclesSole (db : DB) : Op → Prop
  | .set key value => db.ctx.index.lookup key = none → SoleOfLength db.ctx.freeList value.length
  | .update key value => ∀ old ∈ db.ctx.index.lookup key, ¬ old.length.toNat < value.length →
      SoleOfLength db.ctx.freeList value.length
  | .erase _ => True

instance (db : DB) : (op : Op) → Decidable (RecyclesSole db op)
  | .set _ _ => inferInstanceAs (Decidable (_ → _))
  | .update key value => inferInstanceAs (Decidable (∀ old ∈ db.ctx.index.lookup key,
      ¬ old.length.toNat < value.length → SoleOfLength db.ctx.freeList value.length))
  | .erase _ => .isTrue trivial

def RoomForSlot (db : DB) : Prop := db.im.free.size + 12 < 2 ^ 31

instance (db : DB) : Decidable db.RoomForSlot := inferInstanceAs (Decidable (_ < _))

section
variable [Machine] {db db' : DB} {op : Op} {r : Result}

def FreeListRecorded (db : DB) : Prop :=
  db.im.free.size < 2 ^ 31 ∧ ∃ slots, FreeRecorded db.ctx.freeList db.im.free.bytes slots

theorem freeListRecorded_of_slots {slots slots' : List Slot} (hroom : db.RoomForSlot)
    (h : FreeRecorded db.ctx.freeList db.im.free.bytes slots)
    (h' : FreeRecorded db'.ctx.freeList db'.im.free.bytes slots')
    (hcount : slots'.length ≤ slots.length + 1) : db'.FreeListRecorded := by
  refine ⟨?_, slots', h'⟩
  have hsize : db.im.free.size = 1 + 12 * slots.length := by
    rw [File.size, h.file_eq, freeFile_length]
  have hsize' : db'.im.free.size = 1 + 12 * slots'.length := by
    rw [File.size, h'.file_eq, freeFile_length]
  rw [RoomForSlot] at hroom
  omega

theorem opened_freeListRecorded (name : Bytes) (options : Options) :
    (opened name options).FreeListRecorded := ⟨show 1 < 2 ^ 31 by decide, [], rfl, .refl _⟩

theorem FreeListRecorded.apply (hF : db.FreeListRecorded) (hroom : db.RoomForSlot)
    (hsole : RecyclesSole db op) (happly : db.apply op = some (r, db')) : db'.FreeListRecorded := by
  obtain ⟨hsize, slots, h⟩ := hF
  cases op with
  | set key value =>
    obtain ⟨_, _, hdb⟩ | ⟨hnone, _, pos, hout⟩ := set_cases happly
    · exact hdb ▸ ⟨hsize, slots, h⟩
    · obtain ⟨slots', h', hcount⟩ := h.allocate hout.allocated hsize (hsole hnone)
      exact freeListRecorded_of_slots hroom h h' hcount
  | update key value =>
    obtain ⟨_, _, hdb⟩ | ⟨old, hold, _, pos, hout⟩ := update_cases happly
    · exact hdb ▸ ⟨hsize, slots, h⟩
    · have halloc := hout.allocated
      by_cases hgrow : old.length.toNat < value.length
      · rw [if_pos hgrow] at halloc
        obtain ⟨_, hlist, hfile⟩ := halloc
        have h' : FreeRecorded db'.ctx.freeList db'.im.free.bytes slots :=
          ⟨hfile.trans h.file_eq, hlist ▸ h.entries⟩
        exact freeListRecorded_of_slots hroom h h' (Nat.le_succ _)
      · rw [if_neg hgrow] at halloc
        obtain ⟨slots', h', hcount⟩ := h.allocate halloc hsize (hsole old hold hgrow)
        exact freeListRecorded_of_slots hroom h h' hcount
  | erase key =>
    obtain ⟨_, _, hdb⟩ | ⟨old, _, _, hout⟩ := erase_cases happly
    · exact hdb ▸ ⟨hsize, slots, h⟩
    · have hlen : db.im.free.size = 1 + 12 * slots.length := by
        rw [File.size, h.file_eq, freeFile_length]
      have h' : FreeRecorded db'.ctx.freeList db'.im.free.bytes (slots ++ [(old.offset, old.length)]) := by
        rw [hout.freeList, hout.free, hlen, h.file_eq]
        exact .emplace h.entries
      exact freeListRecorded_of_slots hroom h h' (by rw [List.length_append]; rfl)

/-- In a run whose steps recycle only entries of a length that occurs once and have room for one
more slot, loading the free-list file rebuilds the free list up to entries of length 0. -/
theorem loadFree_rebuilds {indet : UInt8} {name : Bytes} {options : Options} {db₀ : DB}
    {trace : List (Op × Result)} (hopen : (new name options).open indet = some (r, db₀))
    (hrun : Run (Steps DB.apply fun db op => db.RoomForSlot ∧ RecyclesSole db op) db₀ trace db)
    (indet' : UInt8) (ctx : DBContext) (im : IoManager) (hempty : ctx.freeList = .empty)
    (hfile : im.free.bytes = db.im.free.bytes) :
    ∃ ctx' im', IoManager.loadFree indet' ctx im.openFiles = some (.success, ctx', im') ∧
      (reusable ctx'.freeList.entries).Perm (reusable db.ctx.freeList.entries) := by
  rw [open_new] at hopen
  cases hopen
  have hF : db.FreeListRecorded := by
    apply hrun.invariant (opened_freeListRecorded name options)
    rintro s ⟨op, r⟩ s' hF ⟨⟨hroom, hsole⟩, happly⟩
    exact hF.apply hroom hsole happly
  obtain ⟨hsize, slots, h⟩ := hF
  rw [← hfile] at h
  rw [File.size, ← hfile] at hsize
  exact h.loadFree hsize indet' ctx hempty

end

section
attribute [local instance] littleEndian

/-- Two values of different lengths are erased, and the space of one is split. -/
theorem loadFree_rebuilds_split :
    ∃ trace db, Run (Steps DB.apply fun db op => db.RoomForSlot ∧ RecyclesSole db op)
        (opened [] {}) trace db ∧ (reusable db.ctx.freeList.entries).length = 2 ∧
      ∃ ctx im, IoManager.loadFree 0 { name := [], options := {} } db.im.openFiles =
          some (.success, ctx, im) ∧
        (reusable ctx.freeList.entries).Perm (reusable db.ctx.freeList.entries) := by
  have hrun : ∃ trace db, Run (Steps DB.apply fun db op => db.RoomForSlot ∧ RecyclesSole db op)
      (opened [] {}) trace db ∧ (reusable db.ctx.freeList.entries).length = 2 :=
    exists_run [.set [97] [1, 2, 3], .set [98] [4, 5], .erase [97], .erase [98], .set [99] [6]]
      (by decide) (by decide)
  obtain ⟨trace, db, hrun, hcount⟩ := hrun
  exact ⟨trace, db, hrun, hcount, loadFree_rebuilds (open_new 0 [] {}) hrun 0
    { name := [], options := {} } db.im rfl rfl⟩

/-- Two values of one length are erased; recycling the space of one loses the other. -/
theorem loadFree_rebuilds_not :
    ∃ trace db, Run (Steps DB.apply fun _ _ => True) (opened [] {}) trace db ∧
      (reusable db.ctx.freeList.entries).length = 1 ∧
      ∃ r ∈ IoManager.loadFree 0 { name := [], options := {} } db.im.openFiles,
        (reusable r.2.1.freeList.entries).length = 2 :=
  exists_run [.set [97] [1, 2], .set [98] [3, 4], .erase [97], .erase [98], .set [99] [5]]
    (by decide) (by decide)

end

end DB

end Ambry
