import Ambry.Aci.OpenTable
import Ambry.Foundation.Ownership

/-!
# Whose files are whose

The open databases live in one directory, and different names may lead to the same
file. A file that is open has been locked, and a second open waits for ever, so two
entries of the table never have a file in common, and the files that the server
itself holds are nobody's. Each database finds in its files what it has put there.
-/

namespace Ambry.Aci

open Foundation Interpreter

/-! ### What opening a file does to the others -/

namespace FileSystem

/-- These files have been opened, and nothing else has happened to the ones that were locked. -/
structure Grown (fs : FileSystem) (new : List Nat) (fs' : FileSystem) : Prop where
  nodup : new.Nodup
  fresh : ∀ i ∈ new, i ∉ fs.locked
  locked : fs'.locked = fs.locked ∪ new.toFinset
  content : ∀ i ∈ fs.locked, fs'.content i = fs.content i
  dir : ∀ place i, fs.dir.lookup place = some i → fs'.dir.lookup place = some i

namespace Grown

variable {fs fs₁ fs₂ : FileSystem} {new more : List Nat} {i : Nat}

theorem mem_locked (h : Grown fs new fs₁) : i ∈ fs₁.locked ↔ i ∈ fs.locked ∨ i ∈ new := by
  rw [h.locked, Finset.mem_union, List.mem_toFinset]

theorem trans (h : Grown fs new fs₁) (h' : Grown fs₁ more fs₂) : Grown fs (new ++ more) fs₂ where
  nodup := List.nodup_append'.mpr ⟨h.nodup, h'.nodup, fun i hi hmore =>
    h'.fresh i hmore (h.mem_locked.mpr (.inr hi))⟩
  fresh i hi hlocked := (List.mem_append.mp hi).elim (fun hnew => h.fresh i hnew hlocked)
    fun hmore => h'.fresh i hmore (h.mem_locked.mpr (.inl hlocked))
  locked := by rw [h'.locked, h.locked, List.toFinset_append, Finset.union_assoc]
  content i hi := (h'.content i (h.mem_locked.mpr (.inl hi))).trans (h.content i hi)
  dir place i hi := h'.dir place i (h.dir place i hi)

end Grown

section
variable [Paths] {paths : List Bytes} {path : Bytes} {fs fs' : FileSystem}

omit [Paths] in
theorem grown_later (fs : FileSystem) : Grown fs [] fs.later :=
  ⟨List.nodup_nil, fun _ h => absurd h List.not_mem_nil, by simp [later], fun _ _ => rfl,
    fun _ _ h => h⟩

theorem openFile_grown {inode : Option Nat} (h : fs.openFile path = .ok (inode, fs')) :
    Grown fs inode.toList fs' := by
  obtain ⟨_, rfl, rfl⟩ | ⟨_, i, rfl, hfree, ⟨hfound, rfl⟩ | ⟨hnone, rfl, rfl⟩⟩ := openFile_cases h
  · exact grown_later fs
  · refine ⟨List.nodup_singleton i, ?_, ?_, fun _ _ => rfl, fun _ _ h => h⟩
    · intro j hj
      rw [List.mem_singleton.mp hj]
      exact hfree
    · ext j
      simp [lock, later]
  · refine ⟨List.nodup_singleton _, ?_, ?_, ?_, ?_⟩
    · intro j hj
      rw [List.mem_singleton.mp hj]
      exact hfree
    · ext j
      simp [lock, later, create]
    · intro j hj
      apply Function.update_of_ne
      rintro rfl
      exact hfree hj
    · intro place j hj
      refine (AList.lookup_insert_ne ?_).trans hj
      rintro rfl
      rw [hnone] at hj
      cases hj

theorem openEach_grown {inodes : Option (List Nat)} (h : fs.openEach paths = .ok (inodes, fs')) :
    ∃ new, Grown fs new fs' ∧ ∀ is ∈ inodes, new = is := by
  induction paths generalizing fs inodes with
  | nil =>
    cases h
    refine ⟨[], ⟨List.nodup_nil, by simp, by simp, fun _ _ => rfl, fun _ _ h => h⟩, ?_⟩
    rintro is ⟨⟩
    rfl
  | cons path paths ih =>
    obtain ⟨_, rfl, rfl⟩ | ⟨_, i, fs₁, rest, hopen, hrest, rfl⟩ := openEach_cons h
    · exact ⟨[], grown_later fs, by rintro is ⟨⟩⟩
    · obtain ⟨new, hgrown, hnew⟩ := ih hrest
      refine ⟨i :: new, (openFile_grown hopen).trans hgrown, fun is his => ?_⟩
      obtain ⟨rest, hrest, rfl⟩ := Option.map_eq_some_iff.mp his
      rw [hnew rest hrest]

/-- A path that was opened did not lead to a file that was locked. -/
theorem openEach_free {inodes : List Nat} (h : fs.openEach paths = .ok (some inodes, fs')) :
    ∀ p ∈ paths, ∀ i, fs.dir.lookup (Paths.resolve p) = some i → i ∉ fs.locked := by
  induction paths generalizing fs inodes with
  | nil => exact fun p hp => absurd hp List.not_mem_nil
  | cons path paths ih =>
    obtain ⟨_, hnone, _⟩ | ⟨_, j, fs₁, rest, hopen, hrest, hinodes⟩ := openEach_cons h
    · cases hnone
    obtain ⟨rest, rfl, rfl⟩ := Option.map_eq_some_iff.mp hinodes.symm
    have hgrown := openFile_grown hopen
    intro p hp i hi
    obtain rfl | hp := List.mem_cons.mp hp
    · obtain ⟨_, hnone, _⟩ | ⟨_, k, hk, hfree, ⟨hfound, _⟩ | ⟨hnone, _⟩⟩ := openFile_cases hopen
      · cases hnone
      · cases hk
        rw [hi] at hfound
        cases hfound
        exact hfree
      · rw [hi] at hnone
        cases hnone
    · exact fun hlocked => ih hrest p hp i (hgrown.dir _ i hi) (hgrown.mem_locked.mpr (.inl hlocked))

variable {message : String → String}

/-- Removing names leaves the files as they are. -/
theorem unlinkEach_keeps : (fs.unlinkEach message paths).2.locked = fs.locked ∧
    (fs.unlinkEach message paths).2.content = fs.content := by
  induction paths generalizing fs with
  | nil => exact ⟨rfl, rfl⟩
  | cons path paths ih =>
    rw [unlinkEach_cons]
    split
    · exact ⟨rfl, rfl⟩
    split
    · exact ih
    · exact ⟨rfl, rfl⟩

theorem unlinkEach_lookup {place : Bytes} (hother : ∀ p ∈ paths, Paths.resolve p ≠ place) :
    (fs.unlinkEach message paths).2.dir.lookup place = fs.dir.lookup place := by
  induction paths generalizing fs with
  | nil => rfl
  | cons path paths ih =>
    rw [unlinkEach_cons]
    obtain ⟨hpath, hpaths⟩ := List.forall_mem_cons.mp hother
    split
    · rfl
    split
    · exact (ih hpaths).trans (AList.lookup_erase_ne hpath.symm)
    · rfl

end

end FileSystem

/-! ### What the entries of the table hold -/

section
variable {dbt : DBTable (Tracked FileDB)} {name : Bytes} {node : Node (Tracked FileDB)}

/-- The files that the entry of a name has open. -/
def heldBy (dbt : DBTable (Tracked FileDB)) (name : Bytes) : List Nat :=
  ((dbt.lookup name).map fun node => node.db.db.inodes).getD []

theorem heldBy_of_lookup (h : dbt.lookup name = some node) : heldBy dbt name = node.db.db.inodes := by
  rw [heldBy, h]
  rfl

theorem heldBy_empty : heldBy ∅ = fun _ => [] := by
  funext name
  rw [heldBy, AList.lookup_empty]
  rfl

theorem heldBy_insert (dbt : DBTable (Tracked FileDB)) (name : Bytes) (node : Node (Tracked FileDB)) :
    heldBy (dbt.insert name node) = Function.update (heldBy dbt) name node.db.db.inodes := by
  funext other
  rcases eq_or_ne other name with rfl | hne
  · rw [Function.update_self, heldBy, AList.lookup_insert]
    rfl
  · rw [Function.update_of_ne hne, heldBy, AList.lookup_insert_ne hne, heldBy]

theorem heldBy_erase (dbt : DBTable (Tracked FileDB)) (name : Bytes) :
    heldBy (dbt.erase name) = Function.update (heldBy dbt) name [] := by
  funext other
  rcases eq_or_ne other name with rfl | hne
  · rw [Function.update_self, heldBy, AList.lookup_erase]
    rfl
  · rw [Function.update_of_ne hne, heldBy, AList.lookup_erase_ne hne, heldBy]

/-- What the object takes to be in its files is there. -/
def FileDB.Coherent (content : Nat → File) (f : FileDB) : Prop :=
  ∀ dat idx free, f.inodes = [dat, idx, free] →
    content dat = f.db.im.dat ∧ content idx = f.db.im.idx ∧ content free = f.db.im.free

theorem FileDB.Coherent.congr {content content' : Nat → File} {f : FileDB}
    (h : f.Coherent content) (heq : ∀ i ∈ f.inodes, content' i = content i) :
    f.Coherent content' := by
  intro dat idx free hinodes
  obtain ⟨hdat, hidx, hfree⟩ := h dat idx free hinodes
  rw [hinodes] at heq
  exact ⟨(heq dat (by simp)).trans hdat, (heq idx (by simp)).trans hidx,
    (heq free (by simp)).trans hfree⟩

theorem FileDB.coherent_nil {content : Nat → File} {f : FileDB} (h : f.inodes = []) :
    f.Coherent content := by
  intro dat idx free hinodes
  rw [h] at hinodes
  cases hinodes

theorem FileDB.coherent_store {f : FileDB} {fs : FileSystem} {dat idx free : Nat}
    (hinodes : f.inodes = [dat, idx, free]) (hnodup : f.inodes.Nodup) :
    f.Coherent (fs.store dat idx free f.db.im).content := by
  intro dat' idx' free' heq
  rw [hinodes] at heq hnodup
  cases heq
  simp only [List.nodup_cons, List.mem_cons, List.not_mem_nil, or_false, not_or] at hnodup
  obtain ⟨⟨hdi, hdf⟩, hif, -⟩ := hnodup
  simp [FileSystem.store, Function.update_of_ne, hdi, hdf, hif]

/-- The files of different entries are different, none of them is one of the reserved files, and the
entries and the reserved files have the content that they should have. -/
structure Isolated (reserved : Finset Nat) (original : Nat → File) (dbt : DBTable (Tracked FileDB))
    (fs : FileSystem) : Prop where
  exclusive : Exclusive reserved (heldBy dbt) fs.locked
  coherent : Each (fun _ t => t.db.Coherent fs.content) dbt
  original : ∀ i ∈ reserved, fs.content i = original i

namespace Isolated

variable {reserved : Finset Nat} {original : Nat → File} {fs fs' : FileSystem} {t : Tracked FileDB}

/-- Files that only the entry of this name may have written to. -/
theorem others (h : Isolated reserved original dbt fs) {content : Nat → File}
    (hcontent : ∀ i, i ∉ heldBy dbt name → i ∈ fs.locked → content i = fs.content i) :
    (∀ other node, other ≠ name → dbt.lookup other = some node → node.db.db.Coherent content) ∧
      ∀ i ∈ reserved, content i = original i := by
  constructor
  · intro other node hne hnode
    refine (h.coherent other node hnode).congr fun i hi => hcontent i ?_ ?_
    · rw [← heldBy_of_lookup hnode] at hi
      exact h.exclusive.apart other name hne hi
    · rw [← heldBy_of_lookup hnode] at hi
      exact h.exclusive.mem_locked other i hi
  · intro i hi
    rw [hcontent i (fun hmem => h.exclusive.not_reserved name i hmem hi)
      (h.exclusive.reserved_subset hi), h.original i hi]

theorem insert (h : Isolated reserved original dbt fs) {node : Node (Tracked FileDB)}
    (hexclusive : Exclusive reserved (Function.update (heldBy dbt) name node.db.db.inodes) fs'.locked)
    (hcontent : ∀ i, i ∉ heldBy dbt name → i ∈ fs.locked → fs'.content i = fs.content i)
    (hnew : node.db.db.Coherent fs'.content) :
    Isolated reserved original (dbt.insert name node) fs' := by
  obtain ⟨hothers, horiginal⟩ := h.others hcontent
  refine ⟨by rwa [heldBy_insert], ?_, horiginal⟩
  intro other node' hnode'
  obtain ⟨rfl, rfl⟩ | ⟨hne, hnode'⟩ := lookup_insert_cases hnode'
  · exact hnew
  · exact hothers other node' hne hnode'

theorem erase (h : Isolated reserved original dbt fs)
    (hexclusive : Exclusive reserved (Function.update (heldBy dbt) name []) fs'.locked)
    (hcontent : ∀ i, i ∉ heldBy dbt name → i ∈ fs.locked → fs'.content i = fs.content i) :
    Isolated reserved original (dbt.erase name) fs' := by
  obtain ⟨hothers, horiginal⟩ := h.others hcontent
  refine ⟨by rwa [heldBy_erase], ?_, horiginal⟩
  intro other node' hnode'
  obtain ⟨hne, hnode'⟩ := lookup_erase_some hnode'
  exact hothers other node' hne hnode'

theorem unlinked (h : Isolated reserved original dbt fs) (hlocked : fs'.locked = fs.locked)
    (hcontent : fs'.content = fs.content) : Isolated reserved original dbt fs' := by
  constructor
  · rw [hlocked]
    exact h.exclusive
  · rw [hcontent]
    exact h.coherent
  · rw [hcontent]
    exact h.original

/-- The object of an entry lets go of its files. -/
theorem released (h : Isolated reserved original dbt fs) (hnode : dbt.lookup name = some node)
    (hlocked : fs'.locked = fs.locked \ node.db.db.inodes.toFinset)
    (hcontent : fs'.content = fs.content) :
    Exclusive reserved (Function.update (heldBy dbt) name []) fs'.locked ∧
      ∀ i, i ∉ heldBy dbt name → i ∈ fs.locked → fs'.content i = fs.content i := by
  constructor
  · rw [hlocked, ← heldBy_of_lookup hnode]
    exact h.exclusive.release name
  · intro i _ _
    rw [hcontent]

end Isolated

end

/-! ### What the calls on an object do to the files -/

section
variable [Machine] [Paths] {f f' : FileDB} {fs fs' : FileSystem} {res : Ambry.Result}

omit [Machine] [Paths] in
theorem on_store {α : Type} {op : DB → Option (α × DB)} {a : α} (h : FileDB.on op f fs = .ok (a, f', fs')) :
    ∃ dat idx free, f.inodes = [dat, idx, free] ∧ f'.inodes = f.inodes ∧
      fs' = fs.store dat idx free f'.db.im := by
  obtain ⟨dat, idx, free, db, hinodes, _, rfl, rfl⟩ := FileDB.on_eq_ok h
  exact ⟨dat, idx, free, hinodes, rfl, rfl⟩

/-- A call writes to no other files than those of its object. -/
theorem touched_store (h : Touched f fs f' fs') :
    (fs' = fs ∧ f'.inodes = f.inodes ∧ f'.db.im = f.db.im) ∨
      ∃ dat idx free, f.inodes = [dat, idx, free] ∧ f'.inodes = f.inodes ∧
        fs' = fs.store dat idx free f'.db.im := by
  cases h with
  | switchCache on h =>
    cases on with
    | true =>
      have hon : FileDB.on (fun db => some ((), db.switchCache true)) f fs = .ok ((), f', fs') := h
      exact .inr (on_store hon)
    | false =>
      cases h
      exact .inl ⟨rfl, rfl, rfl⟩
  | getCached key value h =>
    cases h
    exact .inl ⟨rfl, rfl, rfl⟩
  | get key value h => exact .inr (on_store h)
  | set key value res h => exact .inr (on_store h)
  | update key value res h => exact .inr (on_store h)
  | erase key res h => exact .inr (on_store h)

end

/-! ### Every command keeps the files apart -/

section
variable [Machine] [Paths] {dbt dbt' : DBTable (Tracked FileDB)} {fs fs' : FileSystem}
  {reserved : Finset Nat} {original : Nat → File} {name : Bytes} {node : Node (Tracked FileDB)}
  {t : Tracked FileDB} {res : Ambry.Result}

namespace Isolated

theorem touched (h : Isolated reserved original dbt fs) (hnode : dbt.lookup name = some node)
    (hcall : Touched node.db fs t fs') :
    Isolated reserved original (dbt.insert name { node with db := t }) fs' := by
  have hheld := heldBy_of_lookup hnode
  have hnodup : node.db.db.inodes.Nodup := hheld ▸ h.exclusive.nodup name
  obtain ⟨hcall, _⟩ := Tracked.touched hcall
  obtain ⟨rfl, hinodes, him⟩ | ⟨dat, idx, free, hthree, hinodes, rfl⟩ := touched_store hcall
  · refine h.insert ?_ (fun _ _ _ => rfl) ?_
    · rw [hinodes, ← hheld, Function.update_eq_self]
      exact h.exclusive
    · intro dat idx free heq
      rw [him]
      exact h.coherent name node hnode dat idx free (hinodes ▸ heq)
  · refine h.insert ?_ (fun i hi _ => ?_) ?_
    · rw [hinodes, ← hheld, Function.update_eq_self]
      exact h.exclusive
    · rw [hheld, hthree] at hi
      simp only [List.mem_cons, List.not_mem_nil, or_false, not_or] at hi
      simp [FileSystem.store, Function.update_of_ne, hi]
    · exact FileDB.coherent_store (hinodes.trans hthree) (hinodes ▸ hnodup)

theorem opened (h : Isolated reserved original dbt fs) (hnew : dbt.lookup name = none)
    (addr : Address)
    (hcall : Database.open (Database.new name : Tracked FileDB) fs = .ok (res, t, fs')) :
    Isolated reserved original (dbt.insert name ⟨addr, t⟩) fs' := by
  have hheld : heldBy dbt name = [] := by
    rw [heldBy, hnew]
    rfl
  obtain ⟨hcall, _⟩ := Tracked.on_eq_ok hcall
  obtain ⟨inodes, fs₁, hopen, hcases⟩ := FileDB.open_cases hcall
  obtain ⟨new, hgrown, hinodes⟩ := FileSystem.openEach_grown hopen
  obtain ⟨rfl, _, hdb, rfl⟩ | ⟨dat, idx, free, fs₂, rfl, hload, hthree, rfl⟩ := hcases
  · have hnone : t.db.inodes = [] := by rw [hdb]
    refine h.insert ?_ (fun i _ hi => hgrown.content i hi) (FileDB.coherent_nil hnone)
    rw [hnone, ← hheld, Function.update_eq_self, hgrown.locked]
    exact h.exclusive.lock Finset.subset_union_left
  · obtain rfl := hinodes _ rfl
    obtain ⟨n, rfl⟩ := FileSystem.loadEach_keeps hload
    refine h.insert ?_ (fun i _ hi => ?_) ?_
    · rw [hthree]
      change Exclusive _ _ fs₁.locked
      rw [hgrown.locked]
      exact h.exclusive.acquire name hgrown.nodup hgrown.fresh
    · have hi' : i ∉ [dat, idx, free] := fun hmem => hgrown.fresh i hmem hi
      simp only [List.mem_cons, List.not_mem_nil, or_false, not_or] at hi'
      simp [FileSystem.store, Function.update_of_ne, hi', hgrown.content i hi]
    · exact FileDB.coherent_store hthree (hthree ▸ hgrown.nodup)

theorem closed (h : Isolated reserved original dbt fs) (hnode : dbt.lookup name = some node)
    (hcall : Database.close node.db fs = .ok ((), t, fs')) :
    Isolated reserved original (dbt.erase name) fs' := by
  obtain ⟨hcall, _⟩ := Tracked.on_eq_ok hcall
  obtain ⟨_, rfl⟩ := FileDB.close_eq_ok hcall
  have hunlocked : (fs.unlock node.db.db.inodes).locked =
      fs.locked \ node.db.db.inodes.toFinset := rfl
  obtain ⟨hexclusive, hcontent⟩ := h.released hnode hunlocked rfl
  exact h.erase hexclusive hcontent

theorem destroyed (h : Isolated reserved original dbt fs) (hnode : dbt.lookup name = some node)
    (hcall : Database.destroy node.db fs = .ok (res, t, fs')) :
    Isolated reserved original (dbt.insert name { node with db := t }) fs' := by
  obtain ⟨hcall, _⟩ := Tracked.on_eq_ok hcall
  obtain ⟨hdb, _, rfl⟩ := FileDB.destroy_eq_ok hcall
  have hnone : t.db.inodes = [] := by rw [hdb]
  set removed := fs.unlinkEach (fun _ => "could not delete db file") (filePaths node.db.db.db.name)
  obtain ⟨hlocked, hcontent⟩ : removed.2.locked = fs.locked ∧ removed.2.content = fs.content :=
    FileSystem.unlinkEach_keeps
  have hunlocked : (removed.2.unlock node.db.db.inodes).locked =
      fs.locked \ node.db.db.inodes.toFinset := by rw [← hlocked]; rfl
  obtain ⟨hexclusive, hkept⟩ := h.released hnode hunlocked hcontent
  refine h.insert ?_ hkept (FileDB.coherent_nil hnone)
  rw [hnone]
  exact hexclusive

/-- The entries are destroyed one after the other, each as it stands in the table. -/
theorem destroyEach {entries : List (Σ _ : Bytes, Node (Tracked FileDB))}
    (h : Isolated reserved original dbt fs) (hentries : ∀ e ∈ entries, dbt.lookup e.1 = some e.2)
    (hnodup : (entries.map Sigma.fst).Nodup)
    (hcall : Aci.destroyEach entries dbt fs = .ok (res, dbt', fs')) :
    Isolated reserved original dbt' fs' := by
  induction entries generalizing dbt fs with
  | nil =>
    cases hcall
    exact h
  | cons e entries ih =>
    obtain ⟨name, node⟩ := e
    obtain ⟨⟨res₁, t, fs₁⟩, hdestroy, hcall⟩ := bind_eq_ok hcall
    obtain ⟨hnode, hothers⟩ := List.forall_mem_cons.mp hentries
    obtain ⟨hnew, htail⟩ := List.nodup_cons.mp hnodup
    have hhead := h.destroyed hnode hdestroy
    dsimp only at hcall
    split at hcall
    · refine ih hhead (fun e he => ?_) htail hcall
      have hne : e.1 ≠ name := by
        intro heq
        exact hnew (List.mem_map.mpr ⟨e, he, heq⟩)
      exact (AList.lookup_insert_ne hne).trans (hothers e he)
    · cases hcall
      exact hhead

omit [Machine] [Paths] in
theorem empty (h : Isolated reserved original dbt fs) : Isolated reserved original ∅ fs where
  exclusive := by
    rw [heldBy_empty]
    exact (Exclusive.start reserved).lock h.exclusive.reserved_subset
  coherent := .empty
  original := h.original

theorem closeEach {entries : List (Σ _ : Bytes, Node (Tracked FileDB))}
    (h : Isolated reserved original ∅ fs)
    (hentries : ∀ e ∈ entries, ∀ i ∈ e.2.db.db.inodes, i ∉ reserved)
    (hcall : Aci.closeEach fs entries = .ok fs') : Isolated reserved original ∅ fs' := by
  induction entries generalizing fs with
  | nil =>
    cases hcall
    exact h
  | cons e entries ih =>
    obtain ⟨fs₁, hclose, hcall⟩ := bind_eq_ok hcall
    obtain ⟨⟨_, t, fs₂⟩, hclose, hfs⟩ := bind_eq_ok hclose
    cases hfs
    obtain ⟨hclose, _⟩ := Tracked.on_eq_ok hclose
    obtain ⟨_, rfl⟩ := FileDB.close_eq_ok hclose
    obtain ⟨hhead, hothers⟩ := List.forall_mem_cons.mp hentries
    have hlocked : reserved ⊆ fs.locked \ e.2.db.db.inodes.toFinset := by
      intro i hi
      rw [Finset.mem_sdiff, List.mem_toFinset]
      exact ⟨h.exclusive.reserved_subset hi, fun hheld => hhead i hheld hi⟩
    have hnext : Isolated reserved original ∅ (fs.unlock e.2.db.db.inodes) := by
      refine ⟨?_, .empty, h.original⟩
      rw [heldBy_empty]
      exact (Exclusive.start reserved).lock hlocked
    exact ih hnext hothers hcall

end Isolated

variable {σ : Type} [Store σ] {s s' : FileServer σ} {cmd : Cmd} {fd : Int} {fn : CmdFN} {r : Result}

omit [Paths] [Machine] in
theorem entries_lookup (dbt : DBTable (Tracked FileDB)) :
    (∀ e ∈ dbt.entries, dbt.lookup e.1 = some e.2) ∧ (dbt.entries.map Sigma.fst).Nodup :=
  ⟨fun _ he => AList.mem_lookup_iff.mpr he, dbt.nodupKeys⟩

theorem Effect.isolated (heffect : Effect s cmd fd fn r s')
    (h : Isolated reserved original s.dbt s.world) : Isolated reserved original s'.dbt s'.world := by
  obtain ⟨hentries, hnodup⟩ := entries_lookup s.dbt
  cases heffect with
  | refused | answered | switched | roles | createdFirst | createdUser | addedRoles
  | removedRoles | deletedUser | loggedIn | loggedOut => exact h
  | onWdb _ hnode hcall => exact h.touched (derefWdb_lookup hnode) hcall
  | opened _ _ hnew _ hopen => exact h.opened hnew _ hopen
  | closed _ hnode hclose => exact h.closed hnode hclose
  | closedAll hclose =>
    refine h.empty.closeEach (fun e he i hi => ?_) hclose
    rw [← heldBy_of_lookup (hentries e he)] at hi
    exact h.exclusive.not_reserved e.1 i hi
  | unlinked _ _ _ hcall =>
    obtain ⟨_, rfl⟩ := FileDB.destroyFiles_eq_ok hcall
    exact h.unlinked FileSystem.unlinkEach_keeps.1 FileSystem.unlinkEach_keeps.2
  | destroyed _ _ hnode hdestroy => exact h.destroyed hnode hdestroy
  | destroyedAll hdestroy => exact (h.destroyEach hentries hnodup hdestroy).empty
  | destroyedSome hdestroy => exact h.destroyEach hentries hnodup hdestroy

end

/-! ### The names of the reserved files -/

section
variable [Machine] [Paths] {dbt dbt' : DBTable (Tracked FileDB)} {fs fs' : FileSystem}
  {reserved : Finset Nat} {original : Nat → File} {name place : Bytes} {i : Nat}
  {node : Node (Tracked FileDB)} {t : Tracked FileDB} {res : Ambry.Result}

/-- The place leads to the file, and no entry that has files open has a name that leads there. -/
structure Rooted (place : Bytes) (i : Nat) (dbt : DBTable (Tracked FileDB)) (fs : FileSystem) :
    Prop where
  entry : fs.dir.lookup place = some i
  apart : Each (fun _ t => t.db.inodes ≠ [] →
    ∀ p ∈ filePaths t.db.db.name, Paths.resolve p ≠ place) dbt

omit [Machine] in
theorem destroy_inodes {f f' : FileDB} (h : FileDB.destroy f fs = .ok (res, f', fs')) :
    f.inodes ≠ [] := by
  rw [FileDB.destroy] at h
  split at h
  case h_1 hinodes =>
    rw [hinodes]
    exact List.cons_ne_nil _ _
  case h_2 => cases h

namespace Rooted

theorem touched (h : Rooted place i dbt fs) (hnode : dbt.lookup name = some node)
    (hcall : Touched node.db fs t fs') :
    Rooted place i (dbt.insert name { node with db := t }) fs' := by
  obtain ⟨hcall, _⟩ := Tracked.touched hcall
  obtain ⟨hname, hdir⟩ := touched_keeps hcall
  have hinodes : t.db.inodes = node.db.db.inodes := by
    obtain ⟨_, hinodes, _⟩ | ⟨_, _, _, _, hinodes, _⟩ := touched_store hcall
    · exact hinodes
    · exact hinodes
  refine ⟨hdir ▸ h.entry, h.apart.insert ?_⟩
  rw [hinodes, hname]
  exact h.apart name node hnode

theorem opened (h : Rooted place i dbt fs) (hlocked : i ∈ fs.locked) (addr : Address)
    (hcall : Database.open (Database.new name : Tracked FileDB) fs = .ok (res, t, fs')) :
    Rooted place i (dbt.insert name ⟨addr, t⟩) fs' := by
  obtain ⟨hcall, _⟩ := Tracked.on_eq_ok hcall
  have hname := FileDB.open_name hcall
  obtain ⟨inodes, fs₁, hopen, hcases⟩ := FileDB.open_cases hcall
  obtain ⟨new, hgrown, _⟩ := FileSystem.openEach_grown hopen
  have hentry := hgrown.dir place i h.entry
  obtain ⟨rfl, _, hdb, rfl⟩ | ⟨dat, idx, free, fs₂, rfl, hload, _, rfl⟩ := hcases
  · have hnone : t.db.inodes = [] := by rw [hdb]
    exact ⟨hentry, h.apart.insert fun hne => absurd hnone hne⟩
  · obtain ⟨n, rfl⟩ := FileSystem.loadEach_keeps hload
    refine ⟨hentry, h.apart.insert fun _ p hp hplace => ?_⟩
    rw [hname] at hp
    rw [← hplace] at hentry
    exact FileSystem.openEach_free hopen p hp i (hplace ▸ h.entry) hlocked

theorem destroyed (h : Rooted place i dbt fs) (hnode : dbt.lookup name = some node)
    (hcall : Database.destroy node.db fs = .ok (res, t, fs')) :
    Rooted place i (dbt.insert name { node with db := t }) fs' := by
  obtain ⟨hcall, _⟩ := Tracked.on_eq_ok hcall
  have hopen := destroy_inodes hcall
  obtain ⟨hdb, _, rfl⟩ := FileDB.destroy_eq_ok hcall
  have hnone : t.db.inodes = [] := by rw [hdb]
  have hother := h.apart name node hnode hopen
  refine ⟨?_, h.apart.insert fun hne => absurd hnone hne⟩
  exact (FileSystem.unlinkEach_lookup hother).trans h.entry

theorem destroyEach {entries : List (Σ _ : Bytes, Node (Tracked FileDB))}
    (h : Rooted place i dbt fs) (hentries : ∀ e ∈ entries, dbt.lookup e.1 = some e.2)
    (hnodup : (entries.map Sigma.fst).Nodup)
    (hcall : Aci.destroyEach entries dbt fs = .ok (res, dbt', fs')) : Rooted place i dbt' fs' := by
  induction entries generalizing dbt fs with
  | nil =>
    cases hcall
    exact h
  | cons e entries ih =>
    obtain ⟨name, node⟩ := e
    obtain ⟨⟨res₁, t, fs₁⟩, hdestroy, hcall⟩ := bind_eq_ok hcall
    obtain ⟨hnode, hothers⟩ := List.forall_mem_cons.mp hentries
    obtain ⟨hnew, htail⟩ := List.nodup_cons.mp hnodup
    have hhead := h.destroyed hnode hdestroy
    dsimp only at hcall
    split at hcall
    · refine ih hhead (fun e he => ?_) htail hcall
      have hne : e.1 ≠ name := by
        intro heq
        exact hnew (List.mem_map.mpr ⟨e, he, heq⟩)
      exact (AList.lookup_insert_ne hne).trans (hothers e he)
    · cases hcall
      exact hhead

end Rooted

/-- The event removes a name that leads to this place. -/
def Unlinks (place : Bytes) : Event → Prop
  | .command _ cmd => cmd.cmd = str "destroy" ∧
      ∃ name ∈ cmd.args.head?, ∃ p ∈ filePaths name, Paths.resolve p = place
  | .hangup _ => False

instance Unlinks.decidable (place : Bytes) : ∀ e, Decidable (Unlinks place e)
  | .command _ cmd => inferInstanceAs (Decidable (cmd.cmd = str "destroy" ∧
      ∃ name ∈ cmd.args.head?, ∃ p ∈ filePaths name, Paths.resolve p = place))
  | .hangup _ => inferInstanceAs (Decidable False)

variable {σ : Type} [Store σ] {s s' : FileServer σ} {cmd : Cmd} {fd : Int} {fn : CmdFN} {r : Result}

theorem Effect.rooted (heffect : Effect s cmd fd fn r s') (h : Rooted place i s.dbt s.world)
    (hlocked : i ∈ s.world.locked)
    (hunlink : fn = .destroyCb → ∀ name ∈ cmd.args.head?, ∀ p ∈ filePaths name,
      Paths.resolve p ≠ place) : Rooted place i s'.dbt s'.world := by
  obtain ⟨hentries, hnodup⟩ := entries_lookup s.dbt
  cases heffect with
  | refused | answered | switched | roles | createdFirst | createdUser | addedRoles
  | removedRoles | deletedUser | loggedIn | loggedOut => exact h
  | onWdb _ hnode hcall => exact h.touched (derefWdb_lookup hnode) hcall
  | opened _ _ _ _ hopen => exact h.opened hlocked _ hopen
  | closed _ _ hclose =>
    obtain ⟨hclose, _⟩ := Tracked.on_eq_ok hclose
    rw [(FileDB.close_eq_ok hclose).2]
    exact ⟨h.entry, h.apart.erase _⟩
  | closedAll hclose => exact ⟨by rw [closeEach_dir hclose]; exact h.entry, .empty⟩
  | @unlinked name rest _ _ hargs _ _ hcall =>
    have hname : name ∈ cmd.args.head? := by
      rw [hargs, List.head?_cons]
      rfl
    have hother : ∀ p ∈ [name ++ str ".free", name ++ str ".dat", name ++ str ".idx"],
        Paths.resolve p ≠ place := by
      intro p hp
      apply hunlink rfl name hname
      simp only [filePaths, fileExt, List.map_cons, List.map_nil, List.mem_cons] at hp ⊢
      tauto
    rw [(FileDB.destroyFiles_eq_ok hcall).2]
    exact ⟨(FileSystem.unlinkEach_lookup hother).trans h.entry, h.apart⟩
  | destroyed _ _ hnode hdestroy => exact h.destroyed hnode hdestroy
  | destroyedAll hdestroy => exact ⟨(h.destroyEach hentries hnodup hdestroy).entry, .empty⟩
  | destroyedSome hdestroy => exact h.destroyEach hentries hnodup hdestroy

theorem Effect.restricted (heffect : Effect s cmd fd fn r s')
    (h : Each (fun name _ => name ∉ s.restrictedDbs) s.dbt) :
    s'.restrictedDbs = s.restrictedDbs ∧ Each (fun name _ => name ∉ s.restrictedDbs) s'.dbt := by
  refine ⟨by cases heffect <;> rfl, ?_⟩
  refine heffect.each h (fun hname _ => hname) (fun _ _ hallowed _ _ => hallowed)
    (fun _ _ hallowed _ _ => hallowed) ?_
  intro res dbt fs _ hdestroy _
  exact destroyEach_each hdestroy h fun e he _ _ _ _ _ => h.entry he

/-- The entries of the table and the files that they have open. -/
structure OwnFiles (fs : FileSystem) (s : FileServer σ) : Prop where
  isolated : Isolated fs.locked fs.content s.dbt s.world
  restricted : Each (fun name _ => name ∉ s.restrictedDbs) s.dbt

theorem OwnFiles.handle {e : Event} (h : OwnFiles fs s) (hstep : s.handle e = .ok (r, s')) :
    OwnFiles fs s' := by
  obtain ⟨fd, cmd, rfl, ⟨_, rfl⟩ | ⟨ch, _, heffect⟩⟩ | ⟨fd, rfl, rfl⟩ := handle_cases hstep
  · exact h
  · obtain ⟨hsame, hnames⟩ := heffect.restricted h.restricted
    exact ⟨heffect.isolated h.isolated, by rw [hsame]; exact hnames⟩
  · exact ⟨h.isolated, h.restricted⟩

theorem Rooted.handle {e : Event} (h : Rooted place i s.dbt s.world) (hlocked : i ∈ s.world.locked)
    (hwired : Wired s.ct) (hkept : ¬ Unlinks place e) (hstep : s.handle e = .ok (r, s')) :
    Rooted place i s'.dbt s'.world := by
  obtain ⟨fd, cmd, rfl, ⟨_, rfl⟩ | ⟨ch, hpasses, heffect⟩⟩ | ⟨fd, rfl, rfl⟩ := handle_cases hstep
  · exact h
  · refine heffect.rooted h hlocked fun hfn name hname p hp hplace => hkept ?_
    have hcmd : cmd.cmd = str "destroy" := (hwired.name_iff hpasses.lookup (by decide)).mpr hfn
    exact ⟨hcmd, name, hname, p, hp, hplace⟩
  · exact h

end

section
attribute [local instance] littleEndian noLinks

end

end Ambry.Aci
