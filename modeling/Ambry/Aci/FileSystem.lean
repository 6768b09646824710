import Mathlib.Data.Finset.SDiff
import Ambry.Aci.Stores
import Ambry.Foundation.Lookup
import Ambry.Lib.Opening

/-!
# Databases in files

The open databases as objects of the library on the files of one directory. A
file has an inode; a name in the directory can go while the inode stays open. Any
call that opens or removes a name may fail, and so may those that ask for the size
of a file to load it. A lock that is held inside the server is never released
while a call waits for it. A database object has its descriptors from the moment
that its three files are open until it is closed or destroyed; a call on other
numbers, which may be those of other files by then, has no result. The `cleanup`
of a destructor, on numbers that were closed before or never set, is taken to
close nothing.
-/

namespace Ambry.Aci

open Foundation

/-- Where a path leads: two paths that lead to the same place name one file. -/
class Paths where
  resolve : Bytes → Bytes

structure FileSystem where
  dir : AList fun _ : Bytes => Nat
  content : Nat → File
  /-- the next inode -/
  count : Nat
  locked : Finset Nat
  /-- the error of each later call of `open`, `unlink` or `fstat`, where it fails -/
  refused : Nat → Option String
  indet : UInt8

namespace FileSystem

def later (fs : FileSystem) : FileSystem := { fs with refused := fun i => fs.refused (i + 1) }

def lock (inode : Nat) (fs : FileSystem) : FileSystem :=
  { fs with locked := insert inode fs.locked }

def unlock (inodes : List Nat) (fs : FileSystem) : FileSystem :=
  { fs with locked := fs.locked \ inodes.toFinset }

def store (dat idx free : Nat) (im : IoManager) (fs : FileSystem) : FileSystem :=
  { fs with
    content := Function.update (Function.update (Function.update fs.content dat im.dat) idx im.idx)
      free im.free }

section
variable [Paths]

/-- A name that is not there is created, with a new inode. -/
def create (path : Bytes) (fs : FileSystem) : FileSystem :=
  { fs with
    dir := fs.dir.insert (Paths.resolve path) fs.count
    content := Function.update fs.content fs.count .empty
    count := fs.count + 1 }

/-- `open` with `O_CREAT`, then `flock`. -/
def openFile (path : Bytes) (fs : FileSystem) : Outcome (Option Nat × FileSystem) :=
  match fs.refused 0 with
  | some _ => .ok (none, fs.later)
  | none =>
    match fs.dir.lookup (Paths.resolve path) with
    | some inode =>
      if inode ∈ fs.locked then .error .stuck else .ok (some inode, fs.later.lock inode)
    | none =>
      if fs.count ∈ fs.locked then .error .stuck
      else .ok (some fs.count, (fs.later.create path).lock fs.count)

/-- The loop of `open_files`. -/
def openEach : List Bytes → FileSystem → Outcome (Option (List Nat) × FileSystem)
  | [], fs => .ok (some [], fs)
  | path :: paths, fs => do
    let (inode, fs) ← fs.openFile path
    match inode with
    | none => return (none, fs)
    | some inode => do
      let (inodes, fs) ← openEach paths fs
      return (inodes.map (inode :: ·), fs)

def unlink (path : Bytes) (fs : FileSystem) : FileSystem :=
  { fs.later with dir := fs.dir.erase (Paths.resolve path) }

/-- Names are removed one after the other, up to the first failure. -/
def unlinkEach (message : String → String) : List Bytes → FileSystem → Ambry.Result × FileSystem
  | [], fs => (.success, fs)
  | path :: paths, fs =>
    match fs.refused 0 with
    | some error => (⟨.IoFailure, message error⟩, fs.later)
    | none =>
      if Paths.resolve path ∈ fs.dir then unlinkEach message paths (fs.unlink path)
      else (⟨.IoFailure, message "No such file or directory"⟩, fs.later)

end

/-- One of the calls of `DB::open` fails that can end it: three of `open` and three of `fstat`. -/
def OpenFails (fs : FileSystem) : Prop := ∃ i < 6, fs.refused i ≠ none

instance (fs : FileSystem) : Decidable fs.OpenFails :=
  inferInstanceAs (Decidable (∃ i < 6, fs.refused i ≠ none))

/-- The loaders of `load_structures` one after the other, up to the first whose `fstat` fails. -/
def loadEach : List (DB → Option DB) → DB → FileSystem → Outcome (Ambry.Result × DB × FileSystem)
  | [], db, fs => .ok (.success, db, fs)
  | load :: loads, db, fs =>
    match fs.refused 0 with
    | some _ => .ok (⟨.IoFailure, "could not stat one of db files"⟩, db, fs.later)
    | none => do
      let db ← ofOption (load db)
      loadEach loads db fs.later

section
variable [Paths] {paths : List Bytes} {path place : Bytes} {fs fs' : FileSystem}

theorem openFile_cases {inode : Option Nat} (h : fs.openFile path = .ok (inode, fs')) :
    (fs.refused 0 ≠ none ∧ inode = none ∧ fs' = fs.later) ∨
    (fs.refused 0 = none ∧ ∃ i, inode = some i ∧ i ∉ fs.locked ∧
      ((fs.dir.lookup (Paths.resolve path) = some i ∧ fs' = fs.later.lock i) ∨
        (fs.dir.lookup (Paths.resolve path) = none ∧ i = fs.count ∧
          fs' = (fs.later.create path).lock i))) := by
  rw [openFile] at h
  split at h
  case h_1 error hrefused =>
    cases h
    refine .inl ⟨?_, rfl, rfl⟩
    rw [hrefused]
    simp
  case h_2 hrefused =>
    split at h
    case h_1 i hfound =>
      split at h
      · cases h
      · cases h
        exact .inr ⟨hrefused, i, rfl, by assumption, .inl ⟨hfound, rfl⟩⟩
    case h_2 hnew =>
      split at h
      · cases h
      · cases h
        exact .inr ⟨hrefused, fs.count, rfl, by assumption, .inr ⟨hnew, rfl, rfl⟩⟩

theorem openFile_refused {inode : Option Nat} (h : fs.openFile path = .ok (inode, fs')) :
    fs'.refused = fs.later.refused := by
  obtain ⟨_, _, rfl⟩ | ⟨_, i, _, _, ⟨_, rfl⟩ | ⟨_, _, rfl⟩⟩ := openFile_cases h <;> rfl

theorem openFile_dir {inode : Option Nat} (h : fs.openFile path = .ok (inode, fs'))
    (hother : Paths.resolve path ≠ place) : fs'.dir.lookup place = fs.dir.lookup place := by
  obtain ⟨_, _, rfl⟩ | ⟨_, i, _, _, ⟨_, rfl⟩ | ⟨_, _, rfl⟩⟩ := openFile_cases h
  · rfl
  · rfl
  · exact AList.lookup_insert_ne hother.symm

theorem openEach_cons {inodes : Option (List Nat)} (h : fs.openEach (path :: paths) = .ok (inodes, fs')) :
    (fs.refused 0 ≠ none ∧ inodes = none ∧ fs' = fs.later) ∨
    (fs.refused 0 = none ∧ ∃ i fs₁ rest, fs.openFile path = .ok (some i, fs₁) ∧
      fs₁.openEach paths = .ok (rest, fs') ∧ inodes = rest.map (i :: ·)) := by
  obtain ⟨⟨inode, fs₁⟩, hopen, h⟩ := bind_eq_ok h
  obtain ⟨hrefused, rfl, rfl⟩ | ⟨hrefused, i, rfl, _⟩ := openFile_cases hopen
  · cases h
    exact .inl ⟨hrefused, rfl, rfl⟩
  · obtain ⟨⟨rest, fs₂⟩, hrest, h⟩ := bind_eq_ok h
    cases h
    exact .inr ⟨hrefused, i, fs₁, rest, hopen, hrest, rfl⟩

theorem openEach_isSome {inodes : Option (List Nat)} (h : fs.openEach paths = .ok (inodes, fs')) :
    inodes.isSome ↔ ∀ i < paths.length, fs.refused i = none := by
  induction paths generalizing fs inodes with
  | nil =>
    cases h
    simp
  | cons path paths ih =>
    rw [List.length_cons, Nat.forall_lt_succ_left]
    obtain ⟨hrefused, rfl, _⟩ | ⟨hrefused, i, fs₁, rest, hopen, hrest, rfl⟩ := openEach_cons h
    · exact iff_of_false Bool.false_ne_true fun h => hrefused h.1
    · rw [Option.isSome_map, ih hrest, openFile_refused hopen]
      exact (and_iff_right hrefused).symm

theorem openEach_refused {inodes : List Nat} (h : fs.openEach paths = .ok (some inodes, fs')) (i : Nat) :
    fs'.refused i = fs.refused (i + paths.length) := by
  induction paths generalizing fs inodes with
  | nil =>
    cases h
    rfl
  | cons path paths ih =>
    obtain ⟨_, hinodes, _⟩ | ⟨_, j, fs₁, rest, hopen, hrest, hinodes⟩ := openEach_cons h
    · cases hinodes
    · obtain ⟨rest, rfl, rfl⟩ := Option.map_eq_some_iff.mp hinodes.symm
      rw [ih hrest, openFile_refused hopen]
      rfl

theorem openEach_length {inodes : List Nat} (h : fs.openEach paths = .ok (some inodes, fs')) :
    inodes.length = paths.length := by
  induction paths generalizing fs inodes with
  | nil =>
    cases h
    rfl
  | cons path paths ih =>
    obtain ⟨_, hinodes, _⟩ | ⟨_, i, fs₁, rest, _, hrest, hinodes⟩ := openEach_cons h
    · cases hinodes
    · obtain ⟨rest, rfl, rfl⟩ := Option.map_eq_some_iff.mp hinodes.symm
      rw [List.length_cons, ih hrest, List.length_cons]

theorem openEach_dir {inodes : Option (List Nat)} (h : fs.openEach paths = .ok (inodes, fs'))
    (hother : ∀ path ∈ paths, Paths.resolve path ≠ place) :
    fs'.dir.lookup place = fs.dir.lookup place := by
  induction paths generalizing fs inodes with
  | nil =>
    cases h
    rfl
  | cons path paths ih =>
    obtain ⟨_, _, rfl⟩ | ⟨_, i, fs₁, rest, hopen, hrest, _⟩ := openEach_cons h
    · rfl
    · rw [ih hrest fun p hp => hother p (List.mem_cons_of_mem path hp)]
      exact openFile_dir hopen (hother path List.mem_cons_self)

/-- Files that are not there, or that cannot be opened twice, are opened empty. -/
theorem openEach_new {inodes : List Nat} (h : fs.openEach paths = .ok (some inodes, fs'))
    (hnew : ∀ path ∈ paths, ∀ i, fs.dir.lookup (Paths.resolve path) = some i → i ∈ fs.locked) :
    (∀ i ∈ inodes, fs'.content i = .empty) ∧ ∀ i < fs.count, fs'.content i = fs.content i := by
  induction paths generalizing fs inodes with
  | nil =>
    cases h
    exact ⟨by simp, fun _ _ => rfl⟩
  | cons path paths ih =>
    obtain ⟨_, hinodes, _⟩ | ⟨_, i, fs₁, rest, hopen, hrest, hinodes⟩ := openEach_cons h
    · cases hinodes
    obtain ⟨rest, rfl, rfl⟩ := Option.map_eq_some_iff.mp hinodes.symm
    obtain ⟨_, hnone, _⟩ | ⟨_, j, hj, hfree, ⟨hfound, _⟩ | ⟨hpath, rfl, rfl⟩⟩ := openFile_cases hopen
    · cases hnone
    · exact absurd (hnew path List.mem_cons_self j hfound) hfree
    cases hj
    -- a later path to the same place finds the lock of this one
    have hnew' : ∀ path' ∈ paths, ∀ i,
        ((fs.later.create path).lock fs.count).dir.lookup (Paths.resolve path') = some i →
          i ∈ ((fs.later.create path).lock fs.count).locked := by
      rintro path' hpath' i hi
      have hlookup : (fs.dir.insert (Paths.resolve path) fs.count).lookup
          (Paths.resolve path') = some i := hi
      obtain ⟨_, rfl⟩ | ⟨_, hlookup⟩ := lookup_insert_cases hlookup
      · exact Finset.mem_insert_self _ _
      · exact Finset.mem_insert_of_mem (hnew path' (List.mem_cons_of_mem path hpath') i hlookup)
    obtain ⟨hempty, hkept⟩ := ih hrest hnew'
    constructor
    · rintro i hi
      obtain rfl | hi := List.mem_cons.mp hi
      · rw [hkept fs.count (Nat.lt_succ_self _)]
        exact Function.update_self _ _ _
      · exact hempty i hi
    · rintro i hi
      rw [hkept i (Nat.lt_succ_of_lt hi)]
      exact Function.update_of_ne (Nat.ne_of_lt hi) _ _

/-- No call of `unlinkEach` fails. -/
def Removable (paths : List Bytes) (fs : FileSystem) : Prop :=
  (∀ i < paths.length, fs.refused i = none) ∧ (∀ path ∈ paths, Paths.resolve path ∈ fs.dir) ∧
    (paths.map Paths.resolve).Nodup

instance Removable.decidable (paths : List Bytes) (fs : FileSystem) :
    Decidable (Removable paths fs) :=
  inferInstanceAs (Decidable (_ ∧ _ ∧ _))

theorem removable_cons : Removable (path :: paths) fs ↔
    fs.refused 0 = none ∧ Paths.resolve path ∈ fs.dir ∧ Removable paths (fs.unlink path) := by
  rw [Removable, Removable, List.length_cons, Nat.forall_lt_succ_left, List.forall_mem_cons,
    List.map_cons, List.nodup_cons]
  have hpaths : (∀ path' ∈ paths, Paths.resolve path' ∈ (fs.unlink path).dir) ↔
      Paths.resolve path ∉ paths.map Paths.resolve ∧ ∀ path' ∈ paths, Paths.resolve path' ∈ fs.dir := by
    simp only [unlink, AList.mem_erase, List.mem_map, not_exists, not_and, forall_and]
  rw [hpaths]
  have hlater : (∀ i < paths.length, (fs.unlink path).refused i = none) ↔
      ∀ i < paths.length, fs.refused (i + 1) = none := Iff.rfl
  rw [hlater]
  tauto

variable {message : String → String}

theorem unlinkEach_cons : fs.unlinkEach message (path :: paths) =
    match fs.refused 0 with
    | some error => (⟨.IoFailure, message error⟩, fs.later)
    | none =>
      if Paths.resolve path ∈ fs.dir then (fs.unlink path).unlinkEach message paths
      else (⟨.IoFailure, message "No such file or directory"⟩, fs.later) := rfl

theorem unlinkEach_ok_iff : (fs.unlinkEach message paths).1.ok ↔ Removable paths fs := by
  induction paths generalizing fs with
  | nil => exact iff_of_true rfl ⟨by simp, by simp, List.nodup_nil⟩
  | cons path paths ih =>
    rw [unlinkEach_cons, removable_cons, ← ih]
    split
    case h_1 error hrefused =>
      rw [hrefused]
      simp [BasicResult.ok]
    case h_2 hgranted =>
      split
      case isTrue hfound => simp only [hgranted, hfound, true_and]
      case isFalse hmissing => simp [BasicResult.ok, hmissing]

theorem unlinkEach_absent (h : place ∉ fs.dir) : place ∉ (fs.unlinkEach message paths).2.dir := by
  induction paths generalizing fs with
  | nil => exact h
  | cons path paths ih =>
    rw [unlinkEach_cons]
    split
    · exact h
    split
    · refine ih fun hmem => h ?_
      exact (AList.mem_erase.mp hmem).2
    · exact h

theorem unlinkEach_removed (h : (fs.unlinkEach message paths).1.ok) (hpath : path ∈ paths) :
    Paths.resolve path ∉ (fs.unlinkEach message paths).2.dir := by
  induction paths generalizing fs with
  | nil => cases hpath
  | cons first paths ih =>
    obtain ⟨hgranted, hfound, hrest⟩ := removable_cons.mp (unlinkEach_ok_iff.mp h)
    rw [unlinkEach_cons, hgranted]
    simp only [if_pos hfound]
    obtain rfl | hpath := List.mem_cons.mp hpath
    · refine unlinkEach_absent fun hmem => ?_
      exact (AList.mem_erase.mp hmem).1 rfl
    · exact ih (unlinkEach_ok_iff.mpr hrest) hpath

theorem unlinkEach_append {more : List Bytes} : fs.unlinkEach message (paths ++ more) =
    if (fs.unlinkEach message paths).1.ok then
      (fs.unlinkEach message paths).2.unlinkEach message more
    else fs.unlinkEach message paths := by
  induction paths generalizing fs with
  | nil => rfl
  | cons path paths ih =>
    rw [List.cons_append, unlinkEach_cons, unlinkEach_cons]
    split
    · rfl
    split
    · exact ih
    · rfl

theorem unlinkEach_unlock (inodes : List Nat) : (fs.unlock inodes).unlinkEach message paths =
    ((fs.unlinkEach message paths).1, (fs.unlinkEach message paths).2.unlock inodes) := by
  induction paths generalizing fs with
  | nil => rfl
  | cons path paths ih =>
    rw [unlinkEach_cons, unlinkEach_cons]
    have hrefused : (fs.unlock inodes).refused = fs.refused := rfl
    have hdir : (fs.unlock inodes).dir = fs.dir := rfl
    rw [hrefused, hdir]
    split
    · rfl
    split
    · exact @ih (fs.unlink path)
    · rfl

end

section
variable {loads : List (DB → Option DB)} {load : DB → Option DB} {db db' : DB}
  {fs fs' : FileSystem} {res : Ambry.Result}

theorem loadEach_cons (h : fs.loadEach (load :: loads) db = .ok (res, db', fs')) :
    (fs.refused 0 ≠ none ∧ ¬ res.ok ∧ db' = db ∧ fs' = fs.later) ∨
    (fs.refused 0 = none ∧ ∃ db₁, load db = some db₁ ∧
      fs.later.loadEach loads db₁ = .ok (res, db', fs')) := by
  rw [loadEach] at h
  split at h
  case h_1 error hrefused =>
    cases h
    refine .inl ⟨?_, by simp [BasicResult.ok], rfl, rfl⟩
    rw [hrefused]
    simp
  case h_2 hgranted =>
    obtain ⟨db₁, hload, h⟩ := bind_eq_ok h
    cases hcall : load db with
    | none =>
      rw [hcall] at hload
      cases hload
    | some db₂ =>
      rw [hcall] at hload
      cases hload
      exact .inr ⟨hgranted, db₁, rfl, h⟩

theorem loadEach_ok_iff (h : fs.loadEach loads db = .ok (res, db', fs')) :
    res.ok ↔ ∀ i < loads.length, fs.refused i = none := by
  induction loads generalizing fs db with
  | nil =>
    cases h
    exact iff_of_true rfl (by simp)
  | cons load loads ih =>
    rw [List.length_cons, Nat.forall_lt_succ_left]
    obtain ⟨hrefused, hres, _⟩ | ⟨hgranted, db₁, _, hrest⟩ := loadEach_cons h
    · exact iff_of_false hres fun h => hrefused h.1
    · rw [ih hrest]
      exact (and_iff_right hgranted).symm

/-- The files are looked at only. -/
theorem loadEach_keeps (h : fs.loadEach loads db = .ok (res, db', fs')) :
    ∃ n, fs' = { fs with refused := fun i => fs.refused (i + n) } := by
  induction loads generalizing fs db with
  | nil =>
    cases h
    exact ⟨0, rfl⟩
  | cons load loads ih =>
    obtain ⟨_, _, _, rfl⟩ | ⟨_, db₁, _, hrest⟩ := loadEach_cons h
    · exact ⟨1, rfl⟩
    · obtain ⟨n, rfl⟩ := ih hrest
      exact ⟨n + 1, rfl⟩

theorem loadEach_invariant {P : DB → Prop} (h : fs.loadEach loads db = .ok (res, db', fs'))
    (hdb : P db) (hloads : ∀ load ∈ loads, ∀ db db', P db → load db = some db' → P db') : P db' := by
  induction loads generalizing fs db with
  | nil =>
    cases h
    exact hdb
  | cons load loads ih =>
    obtain ⟨hload, hothers⟩ := List.forall_mem_cons.mp hloads
    obtain ⟨_, _, rfl, _⟩ | ⟨_, db₁, hcall, hrest⟩ := loadEach_cons h
    · exact hdb
    · exact ih hrest (hload db db₁ hdb hcall) hothers

end

end FileSystem

/-- `m_file_ext`. -/
def fileExt : List Bytes := [str ".dat", str ".idx", str ".free"]

def filePaths (name : Bytes) : List Bytes := fileExt.map fun ext => name ++ ext

/-- `load_index`, `load_dat` and `load_free`, each behind its `fstat`. -/
def loaders [Machine] (indet : UInt8) : List (DB → Option DB) :=
  [fun db => (IoManager.loadIndex indet db.ctx db.im).map fun out => ⟨out.2.1, out.2.2⟩,
    fun db => some ⟨(IoManager.loadDat db.ctx db.im).2.1, (IoManager.loadDat db.ctx db.im).2.2⟩,
    fun db => (IoManager.loadFree indet db.ctx db.im).map fun out => ⟨out.2.1, out.2.2⟩]

/-- A database object, with the inodes of its open descriptors. -/
structure FileDB where
  db : DB
  inodes : List Nat := []

namespace FileDB

def on {α : Type} (op : DB → Option (α × DB)) : Method FileDB FileSystem α
  | f, fs =>
    match f.inodes with
    | [dat, idx, free] => do
      let (a, db) ← ofOption (op f.db)
      return (a, { f with db }, fs.store dat idx free db.im)
    | _ => .error .undefined

def close : Method FileDB FileSystem Unit
  | f, fs =>
    match f.inodes with
    | [_, _, _] => .ok ((), { db := f.db.close }, fs.unlock f.inodes)
    | _ => .error .undefined

section
variable [Paths]

def destroy : Method FileDB FileSystem Ambry.Result
  | f, fs =>
    match f.inodes with
    | [_, _, _] =>
      let (res, fs) := (fs.unlock f.inodes).unlinkEach (fun _ => "could not delete db file")
        (filePaths f.db.name)
      .ok (res, { db := f.db }, fs)
    | _ => .error .undefined

/-- `ambry::destroy`. -/
def destroyFiles (name : Bytes) (fs : FileSystem) : Outcome (Ambry.Result × FileSystem) :=
  .ok (fs.unlinkEach id [name ++ str ".free", name ++ str ".dat", name ++ str ".idx"])

def «open» [Machine] : Method FileDB FileSystem Ambry.Result
  | f, fs => do
    let (inodes, fs) ← fs.openEach (filePaths f.db.name)
    match inodes with
    | some [dat, idx, free] => do
      let im : IoManager := ⟨fs.content dat, fs.content idx, fs.content free⟩
      let (res, db, fs) ← fs.loadEach (loaders fs.indet) { f.db with im := im.openFiles }
      return (res, { db, inodes := [dat, idx, free] }, fs.store dat idx free db.im)
    | _ => return (⟨.IoFailure, "could not open one of db files"⟩, { db := f.db }, fs)

end

end FileDB

instance databaseFileDB [Machine] [Paths] : Database FileDB FileSystem where
  new name := { db := DB.new name {} }
  name f := f.db.name
  size f := f.db.size
  isCached f := f.db.isCached
  «open» := FileDB.open
  close := FileDB.close
  destroy := FileDB.destroy
  switchCache on f fs :=
    if on then FileDB.on (fun db => some ((), db.switchCache true)) f fs
    else .ok ((), { f with db := f.db.switchCache false }, fs)
  get key := FileDB.on fun db => some (db.get key, db)
  getCached key f fs := .ok (f.db.getCached key, f, fs)
  set key value := FileDB.on fun db => db.set key value
  update key value := FileDB.on fun db => db.update key value
  erase key := FileDB.on fun db => db.erase key
  destroyFiles := FileDB.destroyFiles
  alloc _ used := used.foldr max 0 + 1
  alloc_fresh _ _ h := Nat.not_succ_le_self _ (Volume.le_foldr_max h)

/-! ### What the calls on an object do -/

namespace FileDB

variable {f f' : FileDB} {fs fs' : FileSystem} {place : Bytes} {res : Ambry.Result}

theorem on_eq_ok {α : Type} {op : DB → Option (α × DB)} {a : α} (h : on op f fs = .ok (a, f', fs')) :
    ∃ dat idx free db, f.inodes = [dat, idx, free] ∧ op f.db = some (a, db) ∧
      f' = { f with db } ∧ fs' = fs.store dat idx free db.im := by
  rw [on] at h
  split at h
  case h_1 dat idx free hinodes =>
    obtain ⟨⟨b, db⟩, hop, h⟩ := bind_eq_ok h
    cases h
    cases hcall : op f.db with
    | none =>
      rw [hcall] at hop
      cases hop
    | some out =>
      rw [hcall] at hop
      cases hop
      exact ⟨dat, idx, free, db, hinodes, rfl, rfl, rfl⟩
  case h_2 => cases h

theorem close_eq_ok (h : close f fs = .ok ((), f', fs')) :
    f' = { db := f.db.close } ∧ fs' = fs.unlock f.inodes := by
  rw [close] at h
  split at h
  · cases h
    exact ⟨rfl, rfl⟩
  · cases h

section
variable [Paths]

theorem destroy_eq_ok (h : destroy f fs = .ok (res, f', fs')) :
    let out := fs.unlinkEach (fun _ => "could not delete db file") (filePaths f.db.name)
    f' = { db := f.db } ∧ res = out.1 ∧ fs' = out.2.unlock f.inodes := by
  rw [destroy] at h
  split at h
  · rw [FileSystem.unlinkEach_unlock] at h
    cases h
    exact ⟨rfl, rfl, rfl⟩
  · cases h

theorem destroyFiles_eq_ok {name : Bytes} (h : destroyFiles name fs = .ok (res, fs')) :
    let out := fs.unlinkEach id [name ++ str ".free", name ++ str ".dat", name ++ str ".idx"]
    res = out.1 ∧ fs' = out.2 := by
  have hout := Except.ok.inj h
  exact ⟨(congrArg Prod.fst hout).symm, (congrArg Prod.snd hout).symm⟩

variable [Machine]

omit [Paths] in
/-- Where no `fstat` fails, the loaders are `open`. -/
theorem loadEach_loaders {db db' : DB} {indet : UInt8}
    (h : fs.loadEach (loaders indet) { db with im := db.im.openFiles } = .ok (res, db', fs'))
    (hres : res.ok) : db.open indet = some (res, db') := by
  obtain ⟨_, hfail, _⟩ | ⟨_, db₁, hfirst, h⟩ := FileSystem.loadEach_cons h
  · exact absurd hres hfail
  obtain ⟨_, hfail, _⟩ | ⟨_, db₂, hsecond, h⟩ := FileSystem.loadEach_cons h
  · exact absurd hres hfail
  obtain ⟨_, hfail, _⟩ | ⟨_, db₃, hthird, h⟩ := FileSystem.loadEach_cons h
  · exact absurd hres hfail
  cases h
  obtain ⟨out, hindex, rfl⟩ := Option.map_eq_some_iff.mp hfirst
  cases hsecond
  obtain ⟨⟨res, ctx, im⟩, hfree, rfl⟩ := Option.map_eq_some_iff.mp hthird
  have hsuccess : res = .success := by
    obtain ⟨_, _, hfree⟩ := Option.bind_eq_some_iff.mp hfree
    obtain ⟨_, _, hfree⟩ := Option.bind_eq_some_iff.mp hfree
    cases hfree
    rfl
  rw [hsuccess] at hfree
  have hload : IoManager.loadStructures indet db.ctx db.im = some (.success, ctx, im) :=
    Option.bind_eq_some_iff.mpr ⟨out, hindex, hfree⟩
  rw [DB.open, hload]
  rfl

omit [Paths] in
theorem loadEach_granted {db db' : DB} {indet : UInt8} (hgranted : ∀ i < 3, fs.refused i = none)
    (h : db.open indet = some (res, db')) :
    ∃ fs', fs.loadEach (loaders indet) { db with im := db.im.openFiles } = .ok (res, db', fs') := by
  obtain ⟨rfl, _⟩ := DB.open_cases h
  obtain ⟨⟨_, ctx, im⟩, hload, h⟩ := Option.bind_eq_some_iff.mp h
  cases h
  obtain ⟨⟨_, ctx₁, im₁⟩, hindex, hfree⟩ := Option.bind_eq_some_iff.mp hload
  have hfirst : fs.refused 0 = none := hgranted 0 (by decide)
  have hsecond : fs.later.refused 0 = none := hgranted 1 (by decide)
  have hthird : fs.later.later.refused 0 = none := hgranted 2 (by decide)
  refine ⟨fs.later.later.later, ?_⟩
  simp only [loaders, FileSystem.loadEach, hfirst, hsecond, hthird, hindex, Option.map_some]
  dsimp only at hfree
  change (do
    let db ← ofOption ((IoManager.loadFree indet (IoManager.loadDat ctx₁ im₁).2.1
      (IoManager.loadDat ctx₁ im₁).2.2).map fun out => (⟨out.2.1, out.2.2⟩ : DB))
    Except.ok (Result.success, db, fs.later.later.later) : Outcome _) = _
  rw [hfree]
  rfl

omit [Paths] in
theorem loaders_name {indet : UInt8} : ∀ load ∈ loaders indet, ∀ db db' : DB,
    load db = some db' → db'.name = db.name := by
  intro load hload db db' hcall
  simp only [loaders, List.mem_cons, List.not_mem_nil, or_false] at hload
  obtain rfl | rfl | rfl := hload
  · obtain ⟨out, hindex, rfl⟩ := Option.map_eq_some_iff.mp hcall
    obtain ⟨_, _, hindex⟩ := Option.bind_eq_some_iff.mp hindex
    obtain ⟨_, _, hindex⟩ := Option.bind_eq_some_iff.mp hindex
    cases hindex
    rfl
  · cases hcall
    rfl
  · obtain ⟨out, hfree, rfl⟩ := Option.map_eq_some_iff.mp hcall
    obtain ⟨_, _, hfree⟩ := Option.bind_eq_some_iff.mp hfree
    obtain ⟨_, _, hfree⟩ := Option.bind_eq_some_iff.mp hfree
    cases hfree
    rfl

theorem open_cases (h : FileDB.open f fs = .ok (res, f', fs')) :
    ∃ inodes fs₁, fs.openEach (filePaths f.db.name) = .ok (inodes, fs₁) ∧
      ((inodes = none ∧ ¬ res.ok ∧ f' = { db := f.db } ∧ fs' = fs₁) ∨
        ∃ dat idx free fs₂, inodes = some [dat, idx, free] ∧
          fs₁.loadEach (loaders fs₁.indet) { f.db with
            im := IoManager.openFiles ⟨fs₁.content dat, fs₁.content idx, fs₁.content free⟩ } =
              .ok (res, f'.db, fs₂) ∧
          f'.inodes = [dat, idx, free] ∧ fs' = fs₂.store dat idx free f'.db.im) := by
  obtain ⟨⟨inodes, fs₁⟩, hopen, h⟩ := bind_eq_ok h
  refine ⟨inodes, fs₁, hopen, ?_⟩
  dsimp only at h
  split at h
  case h_1 dat idx free =>
    obtain ⟨⟨res', db, fs₂⟩, hload, h⟩ := bind_eq_ok h
    cases h
    exact .inr ⟨dat, idx, free, fs₂, rfl, hload, rfl, rfl⟩
  case h_2 hother =>
    cases h
    cases inodes with
    | none => exact .inl ⟨rfl, by simp [BasicResult.ok], rfl, rfl⟩
    | some inodes =>
      have hlength : inodes.length = 3 := FileSystem.openEach_length hopen
      obtain ⟨dat, idx, free, rfl⟩ := List.length_eq_three.mp hlength
      exact absurd rfl (hother dat idx free)

theorem open_ok_iff (h : FileDB.open f fs = .ok (res, f', fs')) : res.ok ↔ ¬ fs.OpenFails := by
  have hfails : ¬ fs.OpenFails ↔ ∀ i < 6, fs.refused i = none := by
    simp only [FileSystem.OpenFails, not_exists, not_and, not_not]
  rw [hfails]
  obtain ⟨inodes, fs₁, hopen, ⟨rfl, hres, _⟩ | ⟨dat, idx, free, fs₂, rfl, hload, _⟩⟩ := open_cases h
  · refine iff_of_false hres fun hgranted => ?_
    cases (FileSystem.openEach_isSome hopen).mpr fun i (hi : i < 3) => hgranted i (by omega)
  · have hopened := (FileSystem.openEach_isSome hopen).mp rfl
    have hlater := FileSystem.openEach_refused hopen
    rw [FileSystem.loadEach_ok_iff hload]
    simp only [hlater]
    constructor
    · intro hloaded i hi
      by_cases hlt : i < 3
      · exact hopened i hlt
      · obtain ⟨j, rfl⟩ := Nat.exists_eq_add_of_le' (Nat.le_of_not_lt hlt)
        exact hloaded j (Nat.lt_of_add_lt_add_right hi)
    · exact fun hgranted i hi => hgranted _ (Nat.add_lt_add_right hi 3)

theorem open_name (h : FileDB.open f fs = .ok (res, f', fs')) : f'.db.name = f.db.name := by
  obtain ⟨inodes, fs₁, _, ⟨_, _, rfl, _⟩ | ⟨dat, idx, free, fs₂, _, hload, _⟩⟩ := open_cases h
  · rfl
  · refine FileSystem.loadEach_invariant (P := fun db => db.name = f.db.name) hload rfl ?_
    exact fun load hmem db db' hname hcall => (loaders_name load hmem db db' hcall).trans hname

theorem open_dir (h : FileDB.open f fs = .ok (res, f', fs'))
    (hother : ∀ path ∈ filePaths f.db.name, Paths.resolve path ≠ place) :
    fs'.dir.lookup place = fs.dir.lookup place := by
  obtain ⟨inodes, fs₁, hopen, ⟨_, _, _, rfl⟩ | ⟨dat, idx, free, fs₂, _, hload, _, rfl⟩⟩ := open_cases h
  · exact FileSystem.openEach_dir hopen hother
  · obtain ⟨n, rfl⟩ := FileSystem.loadEach_keeps hload
    have hdir := FileSystem.openEach_dir hopen hother
    exact hdir

/-- Where it succeeds, it is the `open` of the library. -/
theorem open_success (h : FileDB.open f fs = .ok (res, f', fs')) (hres : res.ok) :
    ∃ dat idx free fs₁, fs.openEach (filePaths f.db.name) = .ok (some [dat, idx, free], fs₁) ∧
      { f.db with im := ⟨fs₁.content dat, fs₁.content idx, fs₁.content free⟩ }.open fs₁.indet =
        some (res, f'.db) ∧ f'.inodes = [dat, idx, free] ∧
      ∃ n, fs' = { fs₁ with refused := fun i => fs₁.refused (i + n) }.store dat idx free f'.db.im := by
  obtain ⟨inodes, fs₁, hopen, ⟨_, hfail, _⟩ | ⟨dat, idx, free, fs₂, rfl, hload, hinodes, rfl⟩⟩ :=
    open_cases h
  · exact absurd hres hfail
  · obtain ⟨n, rfl⟩ := FileSystem.loadEach_keeps hload
    exact ⟨dat, idx, free, fs₁, hopen, loadEach_loaders hload hres, hinodes, n, rfl⟩

theorem open_new {name : Bytes} (h : FileDB.open { db := DB.new name {} } fs = .ok (res, f', fs'))
    (hres : res.ok) (hnew : ∀ path ∈ filePaths name, Paths.resolve path ∉ fs.dir) :
    f'.db.size = 0 := by
  obtain ⟨dat, idx, free, fs₁, hopen, hload, _⟩ := open_success h hres
  have habsent : ∀ path ∈ filePaths name, ∀ i,
      fs.dir.lookup (Paths.resolve path) = some i → i ∈ fs.locked := by
    rintro path hpath i hi
    exact absurd (mem_of_lookup hi) (hnew path hpath)
  obtain ⟨hempty, _⟩ := FileSystem.openEach_new hopen habsent
  rw [hempty dat (by simp), hempty idx (by simp), hempty free (by simp)] at hload
  obtain ⟨-, hdb⟩ := Prod.mk.inj (Option.some.inj ((DB.open_new fs₁.indet name {}).symm.trans hload))
  rw [← hdb]
  rfl

end

end FileDB

end Ambry.Aci
