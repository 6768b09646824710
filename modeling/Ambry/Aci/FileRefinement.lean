import Ambry.Aci.Kept

/-!
# The server as a store of maps

A server that is used with care is one over a disk of maps: what a session reads under
a name is what was last written there, by whom and however often the name was closed
and opened in between. When the server is gone, the records are still there.
-/

namespace Ambry.Aci

open Foundation

theorem tracked_ext {δ : Type} {t t' : Tracked δ} (hdb : t.db = t'.db) (hlife : t.life = t'.life) :
    t = t' := by
  cases t
  cases t'
  cases hdb
  cases hlife
  rfl

section
variable [Machine] [Paths]

/-- The object and the ideal one have the same records, which are those on the disk until the object
is destroyed. -/
structure Serves (restricted : List Bytes) (fs : FileSystem) (disk : Disk) (name : Bytes)
    (t : Tracked FileDB) (v : Volume) : Prop where
  name_eq : t.db.db.ctx.name = name
  volume_name : v.name = name
  options : t.db.db.ctx.options = {}
  represents : Represents t.db.db v.table
  held : t.db.inodes = [] ∨ Plain name ∧ name ∉ restricted ∧ disk.lookup name = some v.table ∧
    ∃ dat idx free, t.db.inodes = [dat, idx, free] ∧ Files fs name dat idx free

structure Refines (restricted : List Bytes) (reserved : Finset Nat) (original : Nat → File)
    (dbt : DBTable (Sparing (Tracked FileDB))) (fs : FileSystem) (dbt' : DBTable Volume)
    (disk : Disk) : Prop where
  faces : dbt.entries.map face = dbt'.entries.map face
  isolated : Isolated reserved original dbt fs
  kept : Kept restricted fs disk
  serves : ∀ name node node', dbt.lookup name = some node → dbt'.lookup name = some node' →
    Serves restricted fs disk name node.db node'.db

variable {restricted : List Bytes} {reserved : Finset Nat} {original : Nat → File}
  {dbt : DBTable (Sparing (Tracked FileDB))} {fs fs' : FileSystem} {dbt' : DBTable Volume}
  {disk disk' : Disk} {name : Bytes} {t t' : Tracked FileDB} {v v' : Volume}
  {res : Ambry.Result} {users roles : Sparing DB} {userTable roleTable : Table}
  {start s : Interpreter (Sparing DB) (Sparing (Tracked FileDB)) FileSystem}
  {trace : List (Interpreter.Event × Result)}

theorem Beyond.serves {other : Bytes} (h : Beyond name fs fs' disk disk') (hne : other ≠ name)
    (hserves : Serves restricted fs disk other t v) :
    Serves restricted fs' disk' other t v := by
  refine { hserves with held := ?_ }
  obtain hnone | ⟨hplain, hallowed, hdisk, dat, idx, free, hinodes, hfiles⟩ := hserves.held
  · exact .inl hnone
  · refine .inr ⟨hplain, hallowed, (h.disk other hne).trans hdisk, dat, idx, free, hinodes, ?_⟩
    exact hfiles.congr fun p hp => h.dir p (filePaths_apart hne hp)

theorem Serves.face_eq (h : Serves restricted fs disk name t v) (addr : Address) :
    face (δ := Sparing (Tracked FileDB)) ⟨name, addr, t⟩ = face ⟨name, addr, v⟩ := by
  have hname : t.db.db.name = v.name := h.name_eq.trans h.volume_name.symm
  have hsize : t.db.db.size = v.table.entries.length := h.represents.size
  have hcached : t.db.db.isCached = true := h.represents.cached
  exact Prod.ext rfl (Prod.ext rfl (Prod.ext hname (Prod.ext hsize hcached)))

namespace Refines

theorem insert (h : Refines restricted reserved original dbt fs dbt' disk)
    (hbeyond : Beyond name fs fs' disk disk') {addr addr' : Address} (haddr : addr = addr')
    (hisolated : Isolated reserved original
      (AList.insert name (⟨addr, t⟩ : Node (Tracked FileDB)) dbt) fs')
    (hkept : Kept restricted fs' disk') (hserves : Serves restricted fs' disk' name t v) :
    Refines restricted reserved original (dbt.insert name ⟨addr, t⟩) fs'
      (dbt'.insert name ⟨addr', v⟩) disk' := by
  subst haddr
  refine ⟨faces_insert h.faces (hserves.face_eq addr), hisolated, hkept, ?_⟩
  intro other node node' hnode hnode'
  obtain ⟨rfl, rfl⟩ | ⟨hne, hnode⟩ := lookup_insert_cases hnode
  · rw [AList.lookup_insert] at hnode'
    cases hnode'
    exact hserves
  · rw [AList.lookup_insert_ne hne] at hnode'
    exact hbeyond.serves hne (h.serves other node node' hnode hnode')

theorem erase (h : Refines restricted reserved original dbt fs dbt' disk)
    (hbeyond : Beyond name fs fs' disk disk')
    (hisolated : Isolated reserved original (dbt.erase name) fs')
    (hkept : Kept restricted fs' disk') :
    Refines restricted reserved original (dbt.erase name) fs' (dbt'.erase name) disk' := by
  refine ⟨faces_erase h.faces name, hisolated, hkept, ?_⟩
  intro other node node' hnode hnode'
  obtain ⟨hne, hnode⟩ := lookup_erase_some hnode
  exact hbeyond.serves hne (h.serves other node node' hnode (lookup_erase_some hnode').2)

theorem addr_eq (h : Refines restricted reserved original dbt fs dbt' disk)
    {node : Node (Tracked FileDB)} {node' : Node Volume} (hnode : dbt.lookup name = some node)
    (hnode' : dbt'.lookup name = some node') : node.addr = node'.addr := by
  have hlookup := faces_lookup h.faces name
  rw [hnode, hnode'] at hlookup
  exact congrArg (fun p => p.2.1) (Option.some.inj hlookup)

theorem clear (h : Refines restricted reserved original dbt fs dbt' disk) :
    Refines restricted reserved original ∅ fs ∅ disk where
  faces := rfl
  isolated := by
    refine ⟨?_, .empty, h.isolated.original⟩
    change Exclusive _ (heldBy ∅) fs.locked
    rw [heldBy_empty]
    exact (Exclusive.start reserved).lock h.isolated.exclusive.reserved_subset
  kept := h.kept
  serves name node node' hnode := by
    rw [AList.lookup_empty] at hnode
    cases hnode

end Refines

/-! ### Every call -/

omit [Paths] in
theorem apply_name {db db' : DB} {op : DB.Op} (h : db.apply op = some (res, db')) :
    db'.ctx.name = db.ctx.name := by
  cases op with
  | set key value => exact DB.set_name h
  | update key value => exact DB.update_name h
  | erase key => exact DB.erase_name h

namespace Refines

variable {node : Node (Tracked FileDB)} {node' : Node Volume} {op : DB.Op}

theorem write (h : Refines restricted reserved original dbt fs dbt' disk)
    (hnode : dbt.lookup name = some node) (hnode' : dbt'.lookup name = some node')
    (hspares : DB.Spares node.db.db.db op) (hsmall : t'.db.db.Small)
    (htouched : Touched node.db fs t' fs')
    (hcall : FileDB.on (fun db => db.apply op) node.db.db fs = .ok (res, t'.db, fs')) :
    ∃ v' disk', Volume.write (fun table => table.apply op) node'.db disk = .ok (res, v', disk') ∧
      Refines restricted reserved original (dbt.insert name { node with db := t' }) fs'
        (dbt'.insert name { node' with db := v' }) disk' := by
  have hserves := h.serves name node node' hnode hnode'
  obtain ⟨dat, idx, free, db, hinodes, happly, hdb, rfl⟩ := FileDB.on_eq_ok hcall
  have hdb' : t'.db.db = db := by rw [hdb]
  subst hdb'
  obtain ⟨table, hop, hrepresents⟩ := hserves.represents.apply hspares happly hsmall
  obtain hnone | ⟨hplain, hallowed, hdisk, _, _, _, hinodes', hfiles⟩ := hserves.held
  · rw [hinodes] at hnone
    cases hnone
  cases hinodes.symm.trans hinodes'
  refine ⟨{ node'.db with table }, disk.insert node'.db.name table, ?_, ?_⟩
  · rw [Volume.write, hop]
    rfl
  have hisolated := h.isolated.touched hnode htouched
  have hinodes₁ : t'.db.inodes = [dat, idx, free] := by rw [hdb]; exact hinodes
  have him := (hisolated.coherent name _ (AList.lookup_insert _)).im_eq hinodes₁
  have hname : t'.db.db.ctx.name = name := (apply_name happly).trans hserves.name_eq
  have hoptions : t'.db.db.ctx.options = {} := (DB.apply_options happly).trans hserves.options
  have hdisk' : (disk.insert node'.db.name table).lookup name = some table := by
    rw [hserves.volume_name, AList.lookup_insert]
  have hbeyond : Beyond name fs (fs.store dat idx free t'.db.db.im) disk
      (disk.insert node'.db.name table) := by
    refine store_beyond h.kept.tidy hfiles fun other hne => AList.lookup_insert_ne ?_
    rwa [hserves.volume_name]
  have htidy : (fs.store dat idx free t'.db.db.im).Tidy :=
    ⟨h.kept.tidy.granted, h.kept.tidy.injective, h.kept.tidy.old⟩
  have hfiles' : Files (fs.store dat idx free t'.db.db.im) name dat idx free :=
    hfiles.congr fun _ _ => rfl
  refine h.insert hbeyond (h.addr_eq hnode hnode') hisolated (hbeyond.kept h.kept htidy fun _ _ => ?_) ?_
  · rw [hdisk']
    exact .files hfiles' hname hoptions him hrepresents
  · exact ⟨hname, hserves.volume_name, hoptions, hrepresents,
      .inr ⟨hplain, hallowed, hdisk', dat, idx, free, hinodes₁, hfiles'⟩⟩

theorem call (h : Refines restricted reserved original dbt fs dbt' disk)
    (hnode : dbt.lookup name = some node) (hnode' : dbt'.lookup name = some node') {α : Type}
    {m : Method (Sparing (Tracked FileDB)) FileSystem α} {m' : Method Volume Disk α}
    (hm : SameCall m m') :
    Follows (fun a b => a.1 = b.1 ∧
      Refines restricted reserved original (dbt.insert name { node with db := a.2.1 }) a.2.2
        (dbt'.insert name { node' with db := b.2.1 }) b.2.2) (m node.db fs) (m' node'.db disk) := by
  have hserves := h.serves name node node' hnode hnode'
  have hcoherent := h.isolated.coherent name node hnode
  rintro ⟨a, t', fs'⟩ hcall
  cases hm with
  | switchCache on => cases hcall
  | get key =>
    obtain ⟨hon, hlife⟩ := Tracked.on_eq_ok hcall
    obtain ⟨rfl, hfile, rfl⟩ := on_read hcoherent hon
    obtain rfl : t' = node.db := tracked_ext hfile hlife
    refine ⟨(node'.db.table.lookup key, node'.db, disk), rfl, ?_, ?_⟩
    · exact congrFun hserves.represents.get key
    · exact h.insert (.refl ..) (h.addr_eq hnode hnode')
        (h.isolated.touched hnode (.get key _ hcall)) h.kept hserves
  | getCached key =>
    obtain ⟨hon, hlife⟩ := Tracked.on_eq_ok hcall
    obtain ⟨rfl, hrest⟩ := Prod.mk.inj (Except.ok.inj hon)
    obtain ⟨hfile, rfl⟩ := Prod.mk.inj hrest
    obtain rfl : t' = node.db := tracked_ext hfile.symm hlife
    refine ⟨(node'.db.table.lookup key, node'.db, disk), rfl, ?_, ?_⟩
    · exact hserves.represents.getCached key
    · exact h.insert (.refl ..) (h.addr_eq hnode hnode')
        (h.isolated.touched hnode (.getCached key _ hcall)) h.kept hserves
  | set key value =>
    obtain ⟨hspares, hcall, hsmall⟩ := Sparing.write_eq_ok hcall
    obtain ⟨hon, _⟩ := Tracked.on_eq_ok hcall
    obtain ⟨v', disk', hwrite, hrefines⟩ :=
      h.write hnode hnode' hspares hsmall (.set key value a hcall) hon
    exact ⟨(a, v', disk'), hwrite, rfl, hrefines⟩
  | update key value =>
    obtain ⟨hspares, hcall, hsmall⟩ := Sparing.write_eq_ok hcall
    obtain ⟨hon, _⟩ := Tracked.on_eq_ok hcall
    obtain ⟨v', disk', hwrite, hrefines⟩ :=
      h.write hnode hnode' hspares hsmall (.update key value a hcall) hon
    exact ⟨(a, v', disk'), hwrite, rfl, hrefines⟩
  | erase key =>
    obtain ⟨hspares, hcall, hsmall⟩ := Sparing.write_eq_ok hcall
    obtain ⟨hon, _⟩ := Tracked.on_eq_ok hcall
    obtain ⟨v', disk', hwrite, hrefines⟩ :=
      h.write hnode hnode' hspares hsmall (.erase key a hcall) hon
    exact ⟨(a, v', disk'), hwrite, rfl, hrefines⟩

theorem close (h : Refines restricted reserved original dbt fs dbt' disk)
    (hnode : dbt.lookup name = some node) :
    Follows (fun a b => Refines restricted reserved original (dbt.erase name) a.2.2
      (dbt'.erase name) b.2.2)
      (Database.close (node.db : Sparing (Tracked FileDB)) fs) (Database.close node'.db disk) := by
  rintro ⟨_, t', fs'⟩ hcall
  refine ⟨((), { node'.db with table := ∅ }, disk), rfl, ?_⟩
  have hisolated := h.isolated.closed hnode hcall
  obtain ⟨hclose, _⟩ := Tracked.on_eq_ok hcall
  obtain ⟨_, rfl⟩ := FileDB.close_eq_ok hclose
  have hbeyond : Beyond name fs (fs.unlock node.db.db.inodes) disk disk :=
    ⟨fun _ _ => rfl, fun _ _ _ _ => rfl, fun _ _ => rfl⟩
  have htidy : (fs.unlock node.db.db.inodes).Tidy :=
    ⟨h.kept.tidy.granted, h.kept.tidy.injective, h.kept.tidy.old⟩
  refine h.erase hbeyond hisolated (hbeyond.kept h.kept htidy fun hplain hallowed => ?_)
  exact (h.kept.stored name hplain hallowed).congr (fun _ _ => rfl) fun _ _ _ _ => rfl

theorem destroy (h : Refines restricted reserved original dbt fs dbt' disk)
    (hnode : dbt.lookup name = some node) (hnode' : dbt'.lookup name = some node') :
    Follows (fun a b => a.1 = b.1 ∧
      Refines restricted reserved original (dbt.insert name { node with db := a.2.1 }) a.2.2
        (dbt'.insert name { node' with db := b.2.1 }) b.2.2)
      (Database.destroy (node.db : Sparing (Tracked FileDB)) fs)
      (Database.destroy node'.db disk) := by
  have hserves := h.serves name node node' hnode hnode'
  rintro ⟨res, t', fs'⟩ hcall
  have hisolated := h.isolated.destroyed hnode hcall
  have hdestroy : FileDB.destroy node.db.db fs = .ok (res, t'.db, fs') := (Tracked.on_eq_ok hcall).1
  obtain hnone | ⟨hplain, _, hdisk, dat, idx, free, _, hfiles⟩ := hserves.held
  · rw [FileDB.destroy, hnone] at hdestroy
    cases hdestroy
  obtain ⟨hdb, rfl, rfl⟩ := FileDB.destroy_eq_ok hdestroy
  have hname : node.db.db.db.name = name := hserves.name_eq
  rw [hname] at hisolated ⊢
  obtain ⟨hsuccess, hstored, hbeyond⟩ :=
    removed h.kept.tidy hplain hfiles (.refl _) (fun _ => "could not delete db file") disk
  have htidy := h.kept.tidy.unlinkEach (fun _ => "could not delete db file") (filePaths name)
  have hvolume : Database.destroy node'.db disk = .ok (.success, node'.db, disk.erase name) := by
    have hunlink : Volume.unlink node'.db.name disk "could not delete db file" =
        (.success, disk.erase name) := by
      rw [Volume.unlink, hserves.volume_name, if_pos (mem_of_lookup hdisk)]
    exact congrArg (fun out => Except.ok (out.1, node'.db, out.2)) hunlink
  set out := fs.unlinkEach (fun _ => "could not delete db file") (filePaths name)
  have hbeyond' : Beyond name fs (out.2.unlock node.db.db.inodes) disk (disk.erase name) :=
    ⟨hbeyond.dir, hbeyond.content, hbeyond.disk⟩
  have hserves' : Serves restricted (out.2.unlock node.db.db.inodes) (disk.erase name) name t'
      node'.db := by
    refine ⟨?_, hserves.volume_name, ?_, ?_, .inl ?_⟩ <;> rw [hdb]
    · exact hserves.name_eq
    · exact hserves.options
    · exact hserves.represents
  refine ⟨(.success, node'.db, disk.erase name), hvolume, hsuccess, ?_⟩
  refine h.insert hbeyond' (h.addr_eq hnode hnode') hisolated (hbeyond'.kept h.kept
    ⟨htidy.granted, htidy.injective, htidy.old⟩ fun _ _ => ?_) hserves'
  rw [AList.lookup_erase]
  exact hstored.congr (fun _ _ => rfl) fun _ _ _ _ => rfl

/-- Something has happened to the files of a name that nobody has opened. -/
theorem unopened (h : Refines restricted reserved original dbt fs dbt' disk)
    (hbeyond : Beyond name fs fs' disk disk') (hnew : dbt.lookup name = none)
    (hlocked : fs'.locked = fs.locked) (hcontent : fs'.content = fs.content)
    (hkept : Kept restricted fs' disk') :
    Refines restricted reserved original dbt fs' dbt' disk' := by
  refine ⟨h.faces, h.isolated.unlinked hlocked hcontent, hkept, ?_⟩
  intro other node node' hnode hnode'
  refine hbeyond.serves ?_ (h.serves other node node' hnode hnode')
  rintro rfl
  rw [hnew] at hnode
  cases hnode

theorem destroyFiles (h : Refines restricted reserved original dbt fs dbt' disk)
    (hallowed : name ∉ restricted) (hnew : dbt.lookup name = none) :
    Follows (fun a b => a.1 = b.1 ∧ Refines restricted reserved original dbt a.2 dbt' b.2)
      (Database.destroyFiles (Sparing (Tracked FileDB)) name fs)
      (Database.destroyFiles Volume name disk) := by
  rintro ⟨res, fs'⟩ hcall
  obtain ⟨hplain, hcall⟩ := Sparing.plain_eq_ok hcall
  obtain ⟨rfl, rfl⟩ := FileDB.destroyFiles_eq_ok hcall
  have hstored := h.kept.stored name hplain hallowed
  set paths := [name ++ str ".free", name ++ str ".dat", name ++ str ".idx"]
  have htidy := h.kept.tidy.unlinkEach id paths
  refine ⟨Volume.unlink name disk "No such file or directory", rfl, ?_⟩
  rw [Volume.unlink]
  generalize hdisk : disk.lookup name = table at hstored
  cases hstored with
  | files hfiles hname hoptions him hrepresents =>
    rw [if_pos (mem_of_lookup hdisk)]
    have hperm : ([name ++ str ".free"] ++ [name ++ str ".dat", name ++ str ".idx"]).Perm
        ([name ++ str ".dat", name ++ str ".idx"] ++ [name ++ str ".free"]) := List.perm_append_comm
    obtain ⟨hlocked, hcontent⟩ : (fs.unlinkEach id paths).2.locked = fs.locked ∧
        (fs.unlinkEach id paths).2.content = fs.content := FileSystem.unlinkEach_keeps
    obtain ⟨hsuccess, hgone, hbeyond⟩ := removed h.kept.tidy hplain hfiles hperm id disk
    refine ⟨hsuccess, h.unopened hbeyond hnew hlocked hcontent
      (hbeyond.kept h.kept htidy fun _ _ => ?_)⟩
    rw [AList.lookup_erase]
    exact hgone
  | absent habsent =>
    have hfirst : Paths.resolve (name ++ str ".free") ∉ fs.dir := by
      rw [hplain _ (free_mem_filePaths name)]
      exact habsent _ (free_mem_filePaths name)
    have hout : fs.unlinkEach id paths =
        (⟨.IoFailure, "No such file or directory"⟩, fs.later) := by
      rw [FileSystem.unlinkEach_cons, h.kept.tidy.granted 0]
      exact if_neg hfirst
    rw [hout] at htidy ⊢
    have hbeyond : Beyond name fs fs.later disk disk :=
      ⟨fun _ _ => rfl, fun _ _ _ _ => rfl, fun _ _ => rfl⟩
    rw [if_neg (AList.lookup_eq_none.mp hdisk)]
    refine ⟨rfl, h.unopened hbeyond hnew rfl rfl (hbeyond.kept h.kept htidy fun _ _ => ?_)⟩
    rw [hdisk]
    exact .absent habsent

theorem «open» (h : Refines restricted reserved original dbt fs dbt' disk)
    (hallowed : name ∉ restricted) (hnew : dbt.lookup name = none) (addr : Address) :
    Follows (fun a b => a.1 = b.1 ∧
      Refines restricted reserved original (dbt.insert name ⟨addr, a.2.1⟩) a.2.2
        (dbt'.insert name ⟨addr, b.2.1⟩) b.2.2)
      (Database.open (Database.new name : Sparing (Tracked FileDB)) fs)
      (Database.open (Database.new name : Volume) disk) := by
  rintro ⟨res, t, fs'⟩ hcall
  obtain ⟨hplain, hcall⟩ := Sparing.plain_eq_ok hcall
  have hplain : Plain name := hplain
  have hisolated := h.isolated.opened hnew addr hcall
  have hopen : FileDB.open { db := DB.new name {} } fs = .ok (res, t.db, fs') :=
    (Tracked.on_eq_ok hcall).1
  have hgranted : ¬ fs.OpenFails := by
    rintro ⟨i, _, hrefused⟩
    exact hrefused (h.kept.tidy.granted i)
  obtain ⟨dat, idx, free, fs₁, heach, hload, hinodes, n, rfl⟩ :=
    FileDB.open_success hopen ((FileDB.open_ok_iff hopen).mpr hgranted)
  obtain ⟨htidy₁, _, hcount, hcontent⟩ := h.kept.tidy.openEach heach
  have hstored := h.kept.stored name hplain hallowed
  obtain ⟨hfiles, hrepresents⟩ := opened_represents h.kept.tidy hplain hstored heach hload
  obtain ⟨rfl, hout⟩ := DB.open_cases hload
  set fs₂ : FileSystem := { fs₁ with refused := fun i => fs₁.refused (i + n) }
  have htidy₂ : fs₂.Tidy := ⟨fun i => htidy₁.granted (i + n), htidy₁.injective, htidy₁.old⟩
  have hfiles₂ : Files fs₂ name dat idx free := hfiles.congr fun _ _ => rfl
  have him := (hisolated.coherent name _ (AList.lookup_insert _)).im_eq hinodes
  have hname : t.db.db.ctx.name = name := DB.open_name hload
  have hoptions : t.db.db.ctx.options = {} := hout.options
  set table := (disk.lookup name).getD ∅
  have hdisk : (disk.insert name table).lookup name = some table := AList.lookup_insert _
  have hfiles' : Files (fs₂.store dat idx free t.db.db.im) name dat idx free :=
    hfiles₂.congr fun _ _ => rfl
  have hbeyond : Beyond name fs (fs₂.store dat idx free t.db.db.im) disk (disk.insert name table) := by
    refine Beyond.trans ⟨fun p hp => ?_, fun p _ i hi => ?_, fun _ _ => rfl⟩
      (store_beyond htidy₂ hfiles₂ fun other hne => AList.lookup_insert_ne hne)
    · have hdir : fs₁.dir.lookup p = fs.dir.lookup p := by
        refine FileSystem.openEach_dir heach fun q hq => ?_
        rw [hplain q hq]
        rintro rfl
        exact hp hq
      exact hdir
    · exact hcontent i (h.kept.tidy.old p i hi)
  refine ⟨(.success, ⟨name, table⟩, disk.insert name table), rfl, rfl, ?_⟩
  refine h.insert hbeyond rfl hisolated (hbeyond.kept h.kept
    ⟨htidy₂.granted, htidy₂.injective, htidy₂.old⟩ fun _ _ => ?_) ?_
  · rw [hdisk]
    exact .files hfiles' hname hoptions him hrepresents
  · exact ⟨hname, rfl, hoptions, hrepresents,
      .inr ⟨hplain, hallowed, hdisk, dat, idx, free, hinodes, hfiles'⟩⟩

end Refines

theorem files_refine (restricted : List Bytes) (reserved : Finset Nat) (original : Nat → File) :
    DatabasesFollow (fun name => name ∉ restricted) (Refines restricted reserved original) where
  faces _ _ _ _ h := h.faces
  alloc _ _ _ _ _ _ := rfl
  call _ _ _ _ h _ _ _ hnode hnode' _ _ _ hm := h.call hnode hnode' hm
  «open» _ _ _ _ h _ addr hallowed hnew := h.open hallowed hnew addr
  close _ _ _ _ h _ _ _ hnode _ := h.close hnode
  destroy _ _ _ _ h _ _ _ hnode hnode' := h.destroy hnode hnode'
  clear _ _ _ _ h := h.clear
  destroyFiles _ _ _ _ h _ hallowed hnew := h.destroyFiles hallowed hnew

theorem Refines.initial (hkept : Kept restricted fs disk) :
    Refines restricted fs.locked fs.content ∅ fs ∅ disk where
  faces := rfl
  isolated := by
    refine ⟨?_, .empty, fun _ _ => rfl⟩
    change Exclusive _ (heldBy ∅) fs.locked
    rw [heldBy_empty]
    exact .start _
  kept := hkept
  serves name node node' hnode := by
    rw [AList.lookup_empty] at hnode
    cases hnode

/-- The names that the server keeps for itself. -/
def ownNames : List Bytes := [str "__ACI_USERS__", str "__ACI_ROLES__"]

/-- The server that is used with care, and the real one. -/
def Same (s : Interpreter (Sparing DB) (Sparing (Tracked FileDB)) FileSystem) (real : FileServer DB) :
    Prop :=
  Similar (fun name => name ∉ ownNames) (fun (users : Sparing DB) (users' : DB) => users = users')
    (fun (dbt : DBTable (Sparing (Tracked FileDB))) fs (dbt' : DBTable (Tracked FileDB)) fs' =>
      dbt = dbt' ∧ fs = fs') s real

omit [Paths] in
theorem real_start (hstart : Interpreter.new ∅ users roles fs = .ok start) :
    ∃ first : FileServer DB, Interpreter.new (σ := DB) ∅ users roles fs = .ok first ∧
      Same start.initCommands first.initCommands := by
  have hnew : Follows Same (Interpreter.new ∅ users roles fs)
      (Interpreter.new (σ := DB) ∅ users roles fs) :=
    Similar.new sparingStore_follows rfl rfl ⟨rfl, rfl⟩ fun _ h => h
  obtain ⟨first, hfirst, hsimilar⟩ := hnew _ hstart
  exact ⟨first, hfirst, Similar.initCommands sparingStore_follows hsimilar⟩

theorem ideal_start (husers : Holds users userTable) (hroles : Holds roles roleTable)
    (hkept : Kept ownNames fs disk) (hstart : Interpreter.new ∅ users roles fs = .ok start) :
    ∃ first : Interpreter Table Volume Disk,
      Interpreter.new ∅ userTable roleTable disk = .ok first ∧
      Similar (fun name => name ∉ ownNames) (fun (users : Sparing DB) (t : Table) => Holds users t)
        (Refines ownNames fs.locked fs.content) start.initCommands first.initCommands := by
  obtain ⟨first, hfirst, hsimilar⟩ := Similar.new sparingTable_follows husers hroles
    (Refines.initial hkept) (fun _ h => h) _ hstart
  exact ⟨first, hfirst, hsimilar.initCommands sparingTable_follows⟩

theorem ideal_run (husers : Holds users userTable) (hroles : Holds roles roleTable)
    (hkept : Kept ownNames fs disk) (hstart : Interpreter.new ∅ users roles fs = .ok start)
    (hrun : Run (Steps Interpreter.next fun _ _ => True) start.initCommands trace s) :
    ∃ first ideal : Interpreter Table Volume Disk,
      Interpreter.new ∅ userTable roleTable disk = .ok first ∧
      Run (Steps Interpreter.next fun _ _ => True) first.initCommands trace ideal ∧
      Similar (fun name => name ∉ ownNames) (fun (users : Sparing DB) (t : Table) => Holds users t)
        (Refines ownNames fs.locked fs.content) s ideal := by
  obtain ⟨first, hfirst, hsimilar⟩ := ideal_start husers hroles hkept hstart
  obtain ⟨ideal, hideal, hend⟩ :=
    hsimilar.run sparingTable_follows (files_refine ownNames fs.locked fs.content) hrun
  exact ⟨first, ideal, hfirst, hideal, hend⟩

/-- A server that is used with care goes through what the real one goes through, and every session
gets the answers that it would get from maps on a disk of maps. The users and the roles stay equal
to their maps. -/
theorem server_refines (husers : Holds users userTable) (hroles : Holds roles roleTable)
    (hkept : Kept ownNames fs disk) (hstart : Interpreter.new ∅ users roles fs = .ok start)
    (hrun : Run (Steps Interpreter.next fun _ _ => True) start.initCommands trace s) :
    (∃ first real : FileServer DB, Interpreter.new (σ := DB) ∅ users roles fs = .ok first ∧
      Run (Steps Interpreter.next fun _ _ => True) first.initCommands trace real ∧
      real.users = s.users ∧ real.roles = s.roles ∧ real.dbt = s.dbt ∧ real.world = s.world) ∧
    ∃ first ideal : Interpreter Table Volume Disk,
      Interpreter.new ∅ userTable roleTable disk = .ok first ∧
      Run (Steps Interpreter.next fun _ _ => True) first.initCommands trace ideal ∧
      Holds s.users ideal.users ∧ Holds s.roles ideal.roles ∧ ideal.logins = s.logins := by
  constructor
  · obtain ⟨first, hfirst, hsimilar⟩ := real_start hstart
    obtain ⟨real, hreal, hend⟩ := Similar.run sparingStore_follows (Sparing.files_follow _) hsimilar hrun
    exact ⟨first, real, hfirst, hreal, hend.users.symm, hend.roles.symm, hend.databases.1.symm,
      hend.databases.2.symm⟩
  · obtain ⟨first, ideal, hfirst, hideal, hend⟩ := ideal_run husers hroles hkept hstart hrun
    exact ⟨first, ideal, hfirst, hideal, hend.users, hend.roles, hend.logins.symm⟩

end

section
attribute [local instance] littleEndian noLinks

theorem opened_holds (name : Bytes) : Holds (DB.opened name {}) ∅ :=
  ⟨⟨DB.opened_durable name {}, rfl, rfl⟩, rfl⟩

theorem emptyDir_kept : Kept ownNames emptyDir ∅ where
  tidy := ⟨fun _ => rfl, fun _ _ _ h _ => (by cases h), fun _ _ h => (by cases h)⟩
  stored _ _ _ := .absent fun _ _ => AList.notMem_empty _

/-- A server on an empty directory. -/
def firstServer : Outcome (Interpreter (Sparing DB) (Sparing (Tracked FileDB)) FileSystem) :=
  Interpreter.new ∅ (DB.opened (str "__ACI_USERS__") {}) (DB.opened (str "__ACI_ROLES__") {}) emptyDir

/-- A session finds what another has left in a database that was closed, and a value that it sets
goes where one was erased. -/
theorem firstServer_run : ∃ start trace s, firstServer = .ok start ∧
    Run (Steps Interpreter.next fun _ _ => True) start.initCommands trace s ∧
      (trace.map Prod.snd).getLast? = some (output (str "w")) ∧ s.world.dir.keys.length = 3 := by
  have hrun : ∃ start ∈ firstServer.toOption, ∃ out ∈ runAll Interpreter.next start.initCommands
      [line 1 "create_user" ["root", "pw"], line 1 "login" ["root", "pw"], line 1 "open" ["a"],
        line 1 "set" ["j", "gone"], line 1 "set" ["k", "v"], line 1 "erase" ["j"],
        line 1 "close" ["a"], line 2 "login" ["root", "pw"], line 2 "open" ["a"],
        line 2 "update" ["k", "w"], line 2 "get" ["k"]],
      (out.1.map Prod.snd).getLast? = some (output (str "w")) ∧
        out.2.world.dir.keys.length = 3 := by
    decide +kernel
  obtain ⟨start, hstart, ⟨trace, s⟩, hout, hlast, hfiles⟩ := hrun
  exact ⟨start, trace, s, toOption_eq_some.mp hstart,
    run_of_runAll (.of_forall (fun _ _ => trivial) _ _) hout, hlast, hfiles⟩

/-- Two sessions on an empty directory. -/
theorem server_refines_sessions : ∃ (trace : List (Interpreter.Event × Result))
    (first ideal : Interpreter Table Volume Disk), Interpreter.new ∅ ∅ ∅ ∅ = .ok first ∧
      Run (Steps Interpreter.next fun _ _ => True) first.initCommands trace ideal ∧
      (trace.map Prod.snd).getLast? = some (output (str "w")) := by
  obtain ⟨start, trace, s, hstart, hrun, hlast, _⟩ := firstServer_run
  obtain ⟨_, first, ideal, hfirst, hideal, _⟩ :=
    server_refines (opened_holds _) (opened_holds _) emptyDir_kept hstart hrun
  exact ⟨trace, first, ideal, hfirst, hideal, hlast⟩

end

section
variable [Machine] [Paths] {fs : FileSystem} {disk : Disk} {users roles : Sparing DB}
  {userTable roleTable : Table}
  {start s : Interpreter (Sparing DB) (Sparing (Tracked FileDB)) FileSystem}
  {trace : List (Interpreter.Event × Result)}

/-- Nothing that a session was told is lost when the server is killed between two commands: whatever
name is opened next, its records are those that it had. -/
theorem records_survive (husers : Holds users userTable) (hroles : Holds roles roleTable)
    (hkept : Kept ownNames fs disk) (hstart : Interpreter.new ∅ users roles fs = .ok start)
    (hrun : Run (Steps Interpreter.next fun _ _ => True) start.initCommands trace s) :
    ∃ first ideal : Interpreter Table Volume Disk,
      Interpreter.new ∅ userTable roleTable disk = .ok first ∧
      Run (Steps Interpreter.next fun _ _ => True) first.initCommands trace ideal ∧
      Kept ownNames { s.world with locked := ∅ } ideal.world ∧
      ∀ name, Plain name → name ∉ ownNames → ∃ f fs',
        FileDB.open { db := DB.new name {} } { s.world with locked := ∅ } =
          .ok (.success, f, fs') ∧
        ∀ k, f.db.get k = ((ideal.world.lookup name).getD ∅).lookup k := by
  obtain ⟨first, ideal, hfirst, hideal, hend⟩ := ideal_run husers hroles hkept hstart hrun
  have hunlocked := hend.databases.kept.unlocked
  refine ⟨first, ideal, hfirst, hideal, hunlocked, fun name hplain hallowed => ?_⟩
  obtain ⟨f, fs', hopen, hrepresents⟩ := hunlocked.reopen rfl hplain hallowed
  exact ⟨f, fs', hopen, fun k => congrFun hrepresents.get k⟩

end

section
attribute [local instance] littleEndian noLinks

/-- The database is open when the server is killed. -/
theorem records_survive_kill : ∃ (s : Interpreter (Sparing DB) (Sparing (Tracked FileDB)) FileSystem)
    (first ideal : Interpreter Table Volume Disk) (trace : List (Interpreter.Event × Result))
    (f : FileDB) (fs : FileSystem),
      Run (Steps Interpreter.next fun _ _ => True) first.initCommands trace ideal ∧
      (trace.map Prod.snd).getLast? = some (output (str "w")) ∧ s.world.dir.keys.length = 3 ∧
      FileDB.open { db := DB.new (str "a") {} } { s.world with locked := ∅ } = .ok (.success, f, fs) ∧
      ∀ k, f.db.get k = ((ideal.world.lookup (str "a")).getD ∅).lookup k := by
  obtain ⟨start, trace, s, hstart, hrun, hlast, hfiles⟩ := firstServer_run
  obtain ⟨first, ideal, _, hideal, _, hopens⟩ :=
    records_survive (opened_holds _) (opened_holds _) emptyDir_kept hstart hrun
  obtain ⟨f, fs, hopen, hget⟩ := hopens (str "a") (by decide) (by decide)
  exact ⟨s, first, ideal, trace, f, fs, hideal, hlast, hfiles, hopen, hget⟩

end

end Ambry.Aci
