import Ambry.Aci.Sparing

/-!
# What the files of a name keep

In a directory without links, where no call fails, a name has its three files for
itself. Between the calls they are those of a database that has been used with care,
or there are none. Nothing that is done to another name changes that, and opening the
name finds the records.
-/

namespace Ambry.Aci

open Foundation

/-! ### The names of the files -/

theorem mem_filePaths {name p : Bytes} : p ∈ filePaths name ↔ ∃ ext ∈ fileExt, p = name ++ ext := by
  simp [filePaths, eq_comm]

theorem fileExt_ne_nil : ∀ ext ∈ fileExt, ext ≠ [] := by decide

theorem fileExt_last : ∀ ext ∈ fileExt, ∀ ext' ∈ fileExt,
    ext.getLast? = ext'.getLast? → ext = ext' := by decide

/-- A file belongs to one name, in one of the three roles. -/
theorem append_fileExt_inj {name other ext ext' : Bytes} (hext : ext ∈ fileExt)
    (hext' : ext' ∈ fileExt) (h : name ++ ext = other ++ ext') : name = other ∧ ext = ext' := by
  have hlast := congrArg List.getLast? h
  rw [List.getLast?_append_of_ne_nil _ (fileExt_ne_nil ext hext),
    List.getLast?_append_of_ne_nil _ (fileExt_ne_nil ext' hext')] at hlast
  obtain rfl := fileExt_last ext hext ext' hext' hlast
  exact ⟨List.append_cancel_right h, rfl⟩

theorem filePaths_apart {name other p : Bytes} (hne : other ≠ name) (hp : p ∈ filePaths other) :
    p ∉ filePaths name := by
  intro hp'
  obtain ⟨ext, hext, rfl⟩ := mem_filePaths.mp hp
  obtain ⟨ext', hext', heq⟩ := mem_filePaths.mp hp'
  exact hne (append_fileExt_inj hext hext' heq).1

theorem filePaths_nodup (name : Bytes) : (filePaths name).Nodup :=
  List.Nodup.map (fun _ _ h => List.append_cancel_left h) (by decide)

theorem dat_mem_filePaths (name : Bytes) : name ++ str ".dat" ∈ filePaths name :=
  mem_filePaths.mpr ⟨_, by decide, rfl⟩

theorem idx_mem_filePaths (name : Bytes) : name ++ str ".idx" ∈ filePaths name :=
  mem_filePaths.mpr ⟨_, by decide, rfl⟩

theorem free_mem_filePaths (name : Bytes) : name ++ str ".free" ∈ filePaths name :=
  mem_filePaths.mpr ⟨_, by decide, rfl⟩

/-! ### A directory without links -/

namespace FileSystem

/-- No call fails, no file has two names, and the inodes to come are not in use. -/
structure Tidy (fs : FileSystem) : Prop where
  granted : ∀ i, fs.refused i = none
  injective : ∀ p q i, fs.dir.lookup p = some i → fs.dir.lookup q = some i → p = q
  old : ∀ p i, fs.dir.lookup p = some i → i < fs.count

section
variable [Paths] {fs fs' : FileSystem} {path : Bytes} {paths : List Bytes} {i : Nat}

namespace Tidy

theorem openFile (h : fs.Tidy) {inode : Option Nat} (hopen : fs.openFile path = .ok (inode, fs')) :
    fs'.Tidy ∧ (∃ i, inode = some i ∧ fs'.dir.lookup (Paths.resolve path) = some i) ∧
      fs.count ≤ fs'.count ∧ ∀ i < fs.count, fs'.content i = fs.content i := by
  obtain ⟨hrefused, _⟩ | ⟨_, i, rfl, _, ⟨hfound, rfl⟩ | ⟨hnew, rfl, rfl⟩⟩ := openFile_cases hopen
  · exact absurd (h.granted 0) hrefused
  · exact ⟨⟨fun j => h.granted (j + 1), h.injective, h.old⟩, ⟨i, rfl, hfound⟩, le_rfl,
      fun _ _ => rfl⟩
  · refine ⟨⟨fun j => h.granted (j + 1), ?_, ?_⟩, ⟨_, rfl, AList.lookup_insert _⟩,
      Nat.le_succ _, fun j hj => Function.update_of_ne (Nat.ne_of_lt hj) _ _⟩
    · intro p q j hp hq
      obtain ⟨rfl, rfl⟩ | ⟨_, hp⟩ := lookup_insert_cases hp
      · obtain ⟨rfl, _⟩ | ⟨_, hq⟩ := lookup_insert_cases hq
        · rfl
        · exact absurd (h.old q _ hq) (lt_irrefl _)
      · obtain ⟨rfl, rfl⟩ | ⟨_, hq⟩ := lookup_insert_cases hq
        · exact absurd (h.old p _ hp) (lt_irrefl _)
        · exact h.injective p q j hp hq
    · intro p j hp
      obtain ⟨_, rfl⟩ | ⟨_, hp⟩ := lookup_insert_cases hp
      · exact Nat.lt_succ_self _
      · exact Nat.lt_succ_of_lt (h.old p j hp)

theorem openEach (h : fs.Tidy) {inodes : Option (List Nat)}
    (hopen : fs.openEach paths = .ok (inodes, fs')) :
    fs'.Tidy ∧ (∃ is, inodes = some is ∧
        paths.map (fun p => fs'.dir.lookup (Paths.resolve p)) = is.map some) ∧
      fs.count ≤ fs'.count ∧ ∀ i < fs.count, fs'.content i = fs.content i := by
  induction paths generalizing fs inodes with
  | nil =>
    cases hopen
    exact ⟨h, ⟨[], rfl, rfl⟩, le_rfl, fun _ _ => rfl⟩
  | cons path paths ih =>
    obtain ⟨hrefused, _⟩ | ⟨_, i, fs₁, rest, hfirst, hrest, rfl⟩ := openEach_cons hopen
    · exact absurd (h.granted 0) hrefused
    obtain ⟨h₁, ⟨_, hi, hlookup⟩, hcount, hcontent⟩ := h.openFile hfirst
    cases hi
    obtain ⟨h₂, ⟨is, rfl, hlookups⟩, hcount', hcontent'⟩ := ih h₁ hrest
    obtain ⟨new, hgrown, _⟩ := openEach_grown hrest
    refine ⟨h₂, ⟨i :: is, rfl, ?_⟩, hcount.trans hcount', fun j hj => ?_⟩
    · rw [List.map_cons, List.map_cons, hlookups, hgrown.dir _ _ hlookup]
    · exact (hcontent' j (hj.trans_le hcount)).trans (hcontent j hj)

/-- The files that are locked belong to other places. -/
theorem openEach_total (h : fs.Tidy) (hnodup : (paths.map Paths.resolve).Nodup)
    (hlocked : ∀ i ∈ fs.locked, ∃ p, fs.dir.lookup p = some i ∧ p ∉ paths.map Paths.resolve) :
    ∃ out, fs.openEach paths = .ok out := by
  induction paths generalizing fs with
  | nil => exact ⟨_, rfl⟩
  | cons path paths ih =>
    obtain ⟨hpath, hnodup⟩ := List.nodup_cons.mp hnodup
    have hfirst : ∃ i fs', fs.openFile path = .ok (some i, fs') ∧
        ∀ j ∈ fs'.locked, ∃ p, fs'.dir.lookup p = some j ∧ p ∉ paths.map Paths.resolve := by
      rw [FileSystem.openFile, h.granted 0]
      dsimp only
      cases hfound : fs.dir.lookup (Paths.resolve path) with
      | some i =>
        have hfree : i ∉ fs.locked := by
          intro hi
          obtain ⟨p, hp, hother⟩ := hlocked i hi
          exact hother (h.injective p _ i hp hfound ▸ List.mem_cons_self)
        refine ⟨i, _, if_neg hfree, fun j hj => ?_⟩
        obtain rfl | hj := Finset.mem_insert.mp hj
        · exact ⟨_, hfound, hpath⟩
        · obtain ⟨p, hp, hother⟩ := hlocked j hj
          exact ⟨p, hp, fun hmem => hother (List.mem_cons_of_mem _ hmem)⟩
      | none =>
        have hfree : fs.count ∉ fs.locked := by
          intro hi
          obtain ⟨p, hp, _⟩ := hlocked _ hi
          exact lt_irrefl _ (h.old p _ hp)
        refine ⟨fs.count, _, if_neg hfree, fun j hj => ?_⟩
        obtain rfl | hj := Finset.mem_insert.mp hj
        · exact ⟨_, AList.lookup_insert _, hpath⟩
        · obtain ⟨p, hp, hother⟩ := hlocked j hj
          refine ⟨p, (AList.lookup_insert_ne ?_).trans hp, fun hmem => hother
            (List.mem_cons_of_mem _ hmem)⟩
          rintro rfl
          exact hother List.mem_cons_self
    obtain ⟨i, fs', hopen, hlocked'⟩ := hfirst
    obtain ⟨out, hrest⟩ := ih (h.openFile hopen).1 hnodup hlocked'
    exact ⟨_, by rw [FileSystem.openEach, hopen]; simp only [bind, Except.bind, hrest]; rfl⟩

theorem unlinkEach (h : fs.Tidy) (message : String → String) (paths : List Bytes) :
    (fs.unlinkEach message paths).2.Tidy := by
  induction paths generalizing fs with
  | nil => exact h
  | cons path paths ih =>
    have hlater : fs.later.Tidy := ⟨fun i => h.granted (i + 1), h.injective, h.old⟩
    rw [unlinkEach_cons, h.granted 0]
    dsimp only
    split
    · refine ih ⟨hlater.granted, fun p q i hp hq => ?_, fun p i hp => ?_⟩
      · exact h.injective p q i (lookup_erase_some hp).2 (lookup_erase_some hq).2
      · exact h.old p i (lookup_erase_some hp).2
    · exact hlater

end Tidy

theorem unlinkEach_success {message : String → String} (h : (fs.unlinkEach message paths).1.ok) :
    (fs.unlinkEach message paths).1 = .success := by
  induction paths generalizing fs with
  | nil => rfl
  | cons path paths ih =>
    rw [unlinkEach_cons] at h ⊢
    split at h
    · cases h
    split at h
    case isTrue hfound =>
      simp only [if_pos hfound] at h ⊢
      exact ih h
    case isFalse => cases h

end

end FileSystem

/-! ### What is kept under a name -/

structure Files (fs : FileSystem) (name : Bytes) (dat idx free : Nat) : Prop where
  dat : fs.dir.lookup (name ++ str ".dat") = some dat
  idx : fs.dir.lookup (name ++ str ".idx") = some idx
  free : fs.dir.lookup (name ++ str ".free") = some free

theorem Files.congr {fs fs' : FileSystem} {name : Bytes} {dat idx free : Nat}
    (h : Files fs name dat idx free)
    (hdir : ∀ p ∈ filePaths name, fs'.dir.lookup p = fs.dir.lookup p) :
    Files fs' name dat idx free :=
  ⟨(hdir _ (dat_mem_filePaths name)).trans h.dat, (hdir _ (idx_mem_filePaths name)).trans h.idx,
    (hdir _ (free_mem_filePaths name)).trans h.free⟩

section
variable [Machine]

/-- The files of a name are those of a database that holds these records, or there are none. -/
inductive Stored (fs : FileSystem) (name : Bytes) : Option Table → Prop
  | files {table : Table} {dat idx free : Nat} {db : DB} (hfiles : Files fs name dat idx free)
      (hname : db.ctx.name = name) (hoptions : db.ctx.options = {})
      (him : db.im = ⟨fs.content dat, fs.content idx, fs.content free⟩)
      (h : Represents db table) : Stored fs name (some table)
  | absent (h : ∀ p ∈ filePaths name, p ∉ fs.dir) : Stored fs name none

/-- The directory is a disk of maps, but for the names that are not opened. -/
structure Kept [Paths] (restricted : List Bytes) (fs : FileSystem) (disk : Disk) : Prop where
  tidy : fs.Tidy
  stored : ∀ name, Plain name → name ∉ restricted → Stored fs name (disk.lookup name)

/-- Nothing has happened but to the files of one name. -/
structure Beyond (name : Bytes) (fs fs' : FileSystem) (disk disk' : Disk) : Prop where
  dir : ∀ p, p ∉ filePaths name → fs'.dir.lookup p = fs.dir.lookup p
  content : ∀ p, p ∉ filePaths name → ∀ i, fs.dir.lookup p = some i → fs'.content i = fs.content i
  disk : ∀ other, other ≠ name → disk'.lookup other = disk.lookup other

variable {fs fs' : FileSystem} {disk disk' : Disk} {name other : Bytes} {table : Option Table}

theorem Stored.congr (h : Stored fs name table)
    (hdir : ∀ p ∈ filePaths name, fs'.dir.lookup p = fs.dir.lookup p)
    (hcontent : ∀ p ∈ filePaths name, ∀ i, fs.dir.lookup p = some i →
      fs'.content i = fs.content i) : Stored fs' name table := by
  cases h with
  | files hfiles hname hoptions him h =>
    refine .files (hfiles.congr hdir) hname hoptions ?_ h
    rw [hcontent _ (dat_mem_filePaths name) _ hfiles.dat,
      hcontent _ (idx_mem_filePaths name) _ hfiles.idx,
      hcontent _ (free_mem_filePaths name) _ hfiles.free]
    exact him
  | absent h =>
    refine .absent fun p hp => ?_
    have hnone := AList.lookup_eq_none.mpr (h p hp)
    rw [← hdir p hp] at hnone
    exact AList.lookup_eq_none.mp hnone

namespace Beyond

omit [Machine] in
theorem refl (name : Bytes) (fs : FileSystem) (disk : Disk) : Beyond name fs fs disk disk :=
  ⟨fun _ _ => rfl, fun _ _ _ _ => rfl, fun _ _ => rfl⟩

omit [Machine] in
theorem trans {fs₁ : FileSystem} {disk₁ : Disk} (h : Beyond name fs fs₁ disk disk₁)
    (h' : Beyond name fs₁ fs' disk₁ disk') : Beyond name fs fs' disk disk' where
  dir p hp := (h'.dir p hp).trans (h.dir p hp)
  content p hp i hi := (h'.content p hp i ((h.dir p hp).trans hi)).trans (h.content p hp i hi)
  disk other hne := (h'.disk other hne).trans (h.disk other hne)

theorem stored (h : Beyond name fs fs' disk disk') (hne : other ≠ name)
    (hstored : Stored fs other (disk.lookup other)) : Stored fs' other (disk'.lookup other) := by
  rw [h.disk other hne]
  exact hstored.congr (fun p hp => h.dir p (filePaths_apart hne hp))
    fun p hp => h.content p (filePaths_apart hne hp)

variable [Paths] {restricted : List Bytes}

theorem kept (h : Beyond name fs fs' disk disk') (hkept : Kept restricted fs disk)
    (htidy : fs'.Tidy)
    (hstored : Plain name → name ∉ restricted → Stored fs' name (disk'.lookup name)) :
    Kept restricted fs' disk' := by
  refine ⟨htidy, fun other hplain hallowed => ?_⟩
  rcases eq_or_ne other name with rfl | hne
  · exact hstored hplain hallowed
  · exact h.stored hne (hkept.stored other hplain hallowed)

end Beyond

end

/-! ### Writing, removing and opening -/

section
variable {fs fs' : FileSystem} {disk disk' : Disk} {name : Bytes} {res : Ambry.Result}

/-- What is in the files already can be put there. -/
theorem store_self {f : FileDB} {dat idx free : Nat} (h : f.Coherent fs.content)
    (hinodes : f.inodes = [dat, idx, free]) : fs.store dat idx free f.db.im = fs := by
  obtain ⟨hdat, hidx, hfree⟩ := h dat idx free hinodes
  rw [FileSystem.store, ← hdat, Function.update_eq_self, ← hidx, Function.update_eq_self, ← hfree,
    Function.update_eq_self]

theorem on_read {α : Type} {read : DB → α} {a : α} {f f' : FileDB} (hcoherent : f.Coherent fs.content)
    (h : FileDB.on (fun db => some (read db, db)) f fs = .ok (a, f', fs')) :
    a = read f.db ∧ f' = f ∧ fs' = fs := by
  obtain ⟨dat, idx, free, db, hinodes, hread, rfl, rfl⟩ := FileDB.on_eq_ok h
  cases hread
  exact ⟨rfl, rfl, store_self hcoherent hinodes⟩

/-- A write to the files of one name. -/
theorem store_beyond {dat idx free : Nat} {im : IoManager} (htidy : fs.Tidy)
    (hfiles : Files fs name dat idx free)
    (hdisk : ∀ other, other ≠ name → disk'.lookup other = disk.lookup other) :
    Beyond name fs (fs.store dat idx free im) disk disk' := by
  refine ⟨fun _ _ => rfl, ?_, hdisk⟩
  intro p hp i hi
  have hne : ∀ q ∈ filePaths name, ∀ j, fs.dir.lookup q = some j → i ≠ j := by
    rintro q hq j hj rfl
    exact hp (htidy.injective p q i hi hj ▸ hq)
  have hdat := hne _ (dat_mem_filePaths name) _ hfiles.dat
  have hidx := hne _ (idx_mem_filePaths name) _ hfiles.idx
  have hfree := hne _ (free_mem_filePaths name) _ hfiles.free
  simp [FileSystem.store, Function.update_of_ne, hdat, hidx, hfree]

theorem FileDB.Coherent.im_eq {f : FileDB} {content : Nat → File} {dat idx free : Nat}
    (h : f.Coherent content) (hinodes : f.inodes = [dat, idx, free]) :
    f.db.im = ⟨content dat, content idx, content free⟩ := by
  obtain ⟨hdat, hidx, hfree⟩ := h dat idx free hinodes
  rw [hdat, hidx, hfree]

theorem new_eq_close {db : DB} (hname : db.ctx.name = name) (hoptions : db.ctx.options = {})
    (hstray : db.ctx.stray = false) : { DB.new name {} with im := db.im } = db.close := by
  obtain ⟨ctx, im⟩ := db
  obtain ⟨index, data, freeList, options, name', stray⟩ := ctx
  obtain rfl : name' = name := hname
  obtain rfl : options = {} := hoptions
  obtain rfl : stray = false := hstray
  rfl

variable [Paths]

theorem removable_files {paths : List Bytes} {dat idx free : Nat} (htidy : fs.Tidy)
    (hplain : Plain name) (hfiles : Files fs name dat idx free)
    (hpaths : paths.Perm (filePaths name)) : fs.Removable paths := by
  have hresolve : paths.map Paths.resolve = paths :=
    (List.map_congr_left fun p hp => hplain p (hpaths.mem_iff.mp hp)).trans (List.map_id paths)
  refine ⟨fun i _ => htidy.granted i, fun p hp => ?_, ?_⟩
  · have hp' := hpaths.mem_iff.mp hp
    rw [hplain p hp']
    simp only [filePaths, fileExt, List.map_cons, List.map_nil, List.mem_cons, List.not_mem_nil,
      or_false] at hp'
    obtain rfl | rfl | rfl := hp'
    · exact mem_of_lookup hfiles.dat
    · exact mem_of_lookup hfiles.idx
    · exact mem_of_lookup hfiles.free
  · rw [hresolve, hpaths.nodup_iff]
    exact filePaths_nodup name

variable [Machine]

/-- The files of a name are removed in any order. -/
theorem removed {paths : List Bytes} {dat idx free : Nat} (htidy : fs.Tidy)
    (hplain : Plain name) (hfiles : Files fs name dat idx free)
    (hpaths : paths.Perm (filePaths name)) (message : String → String) (disk : Disk) :
    (fs.unlinkEach message paths).1 = .success ∧
      Stored (fs.unlinkEach message paths).2 name none ∧
      Beyond name fs (fs.unlinkEach message paths).2 disk (disk.erase name) := by
  have hok : (fs.unlinkEach message paths).1.ok :=
    FileSystem.unlinkEach_ok_iff.mpr (removable_files htidy hplain hfiles hpaths)
  have hcontent : (fs.unlinkEach message paths).2.content = fs.content :=
    FileSystem.unlinkEach_keeps.2
  refine ⟨FileSystem.unlinkEach_success hok, .absent fun p hp => ?_, fun p hp => ?_, ?_,
    fun other hne => AList.lookup_erase_ne hne⟩
  · have habsent := FileSystem.unlinkEach_removed hok (hpaths.mem_iff.mpr hp)
    rwa [hplain p hp] at habsent
  · refine FileSystem.unlinkEach_lookup fun q hq => ?_
    have hq' := hpaths.mem_iff.mp hq
    rw [hplain q hq']
    rintro rfl
    exact hp hq'
  · intro p _ i _
    rw [hcontent]

/-- The files are opened, or created, and the object has the records that were kept in them. -/
theorem opened_represents {fs₁ : FileSystem} {dat idx free : Nat} {db : DB} {table : Option Table}
    (htidy : fs.Tidy) (hplain : Plain name) (hstored : Stored fs name table)
    (heach : fs.openEach (filePaths name) = .ok (some [dat, idx, free], fs₁))
    (hload : { DB.new name {} with
      im := ⟨fs₁.content dat, fs₁.content idx, fs₁.content free⟩ }.open fs₁.indet = some (res, db)) :
    Files fs₁ name dat idx free ∧ Represents db (table.getD ∅) := by
  obtain ⟨htidy₁, ⟨is, his, hlookups⟩, _, hcontent⟩ := htidy.openEach heach
  obtain ⟨new, hgrown, _⟩ := FileSystem.openEach_grown heach
  cases his
  have hfiles : Files fs₁ name dat idx free := by
    have hsame : (filePaths name).map (fun p => fs₁.dir.lookup p) =
        (filePaths name).map fun p => fs₁.dir.lookup (Paths.resolve p) :=
      List.map_congr_left fun p hp => by rw [hplain p hp]
    have hplaces := hsame.trans hlookups
    simp only [filePaths, fileExt, List.map_cons, List.map_nil, List.cons.injEq, and_true] at hplaces
    exact ⟨hplaces.1, hplaces.2.1, hplaces.2.2⟩
  refine ⟨hfiles, ?_⟩
  cases hstored with
  | @files table dat' idx' free' db₀ hfiles' hname hoptions him h =>
    have hsame {p : Bytes} {i j : Nat} (hi : fs₁.dir.lookup p = some i)
        (hj : fs.dir.lookup p = some j) : fs₁.content i = fs.content j := by
      cases hi.symm.trans (hgrown.dir p j hj)
      exact hcontent i (htidy.old p i hj)
    have him' : (⟨fs₁.content dat, fs₁.content idx, fs₁.content free⟩ : IoManager) = db₀.im := by
      rw [him, hsame hfiles.dat hfiles'.dat, hsame hfiles.idx hfiles'.idx,
        hsame hfiles.free hfiles'.free]
    rw [him', new_eq_close hname hoptions (h.durable.mirror h.cached).inVector] at hload
    obtain ⟨hdurable, hget⟩ := h.durable.reopen hload
    refine ⟨hdurable, ?_, (congrArg Prod.snd hget).trans h.get⟩
    have hsameOptions : db.ctx.options = db₀.ctx.options := (DB.open_cases hload).2.options
    rw [DB.isCached, hsameOptions]
    exact h.cached
  | absent habsent =>
    have hnew : ∀ p ∈ filePaths name, ∀ i, fs.dir.lookup (Paths.resolve p) = some i →
        i ∈ fs.locked := by
      intro p hp i hi
      rw [hplain p hp] at hi
      exact absurd (mem_of_lookup hi) (habsent p hp)
    obtain ⟨hempty, _⟩ := FileSystem.openEach_new heach hnew
    rw [hempty dat (by simp), hempty idx (by simp), hempty free (by simp)] at hload
    cases (DB.open_new fs₁.indet name {}).symm.trans hload
    exact ⟨DB.opened_durable name {}, rfl, rfl⟩

theorem Kept.unlocked {restricted : List Bytes} (h : Kept restricted fs disk) :
    Kept restricted { fs with locked := ∅ } disk := by
  refine ⟨⟨h.tidy.granted, h.tidy.injective, h.tidy.old⟩, ?_⟩
  intro name hplain hallowed
  exact (h.stored name hplain hallowed).congr (fun _ _ => rfl) fun _ _ _ _ => rfl

/-- The names of a disk can be opened once nobody has locked their files, and the records are
found. -/
theorem Kept.reopen {restricted : List Bytes} (h : Kept restricted fs disk)
    (hlocked : fs.locked = ∅) (hplain : Plain name) (hallowed : name ∉ restricted) :
    ∃ f fs', FileDB.open { db := DB.new name {} } fs = .ok (.success, f, fs') ∧
      Represents f.db ((disk.lookup name).getD ∅) := by
  have hpaths : (filePaths name).map Paths.resolve = filePaths name :=
    (List.map_congr_left fun p hp => hplain p hp).trans (List.map_id _)
  obtain ⟨⟨inodes, fs₁⟩, heach⟩ := h.tidy.openEach_total (hpaths ▸ filePaths_nodup name) (by
    intro i hi
    rw [hlocked] at hi
    cases hi)
  obtain ⟨_, ⟨is, rfl, _⟩, _⟩ := h.tidy.openEach heach
  obtain ⟨dat, idx, free, rfl⟩ := List.length_eq_three.mp (FileSystem.openEach_length heach)
  obtain ⟨db, hload⟩ := DB.open_total fs₁.indet { DB.new name {} with
    im := ⟨fs₁.content dat, fs₁.content idx, fs₁.content free⟩ }
  obtain ⟨_, hrepresents⟩ :=
    opened_represents h.tidy hplain (h.stored name hplain hallowed) heach hload
  obtain ⟨htidy₁, _⟩ := h.tidy.openEach heach
  obtain ⟨fs₂, hloaded⟩ := FileDB.loadEach_granted (fun i _ => htidy₁.granted i) hload
  refine ⟨{ db, inodes := [dat, idx, free] }, fs₂.store dat idx free db.im, ?_, hrepresents⟩
  have heach' : fs.openEach (filePaths (DB.new name {}).name) = .ok (some [dat, idx, free], fs₁) :=
    heach
  rw [FileDB.open, heach']
  simp only [bind, Except.bind, hloaded]
  rfl

end

end Ambry.Aci
