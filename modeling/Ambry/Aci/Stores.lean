import Ambry.Aci.Interpreter
import Ambry.Lib.DB

/-!
# Stores

The users and the roles as the library keeps them, and as ideal finite maps. For
closed runs there is a database object over an ideal disk, which keeps under
every name the records of the database that was opened with it.
-/

namespace Ambry.Aci

/-- A file call that cannot be complete does not return. -/
def ofOption {α : Type} : Option α → Outcome α
  | some a => .ok a
  | none => .error .stuck

theorem ofOption_eq_ok {α : Type} {x : Option α} {a : α} (h : ofOption x = .ok a) : x = some a := by
  cases x with
  | none => cases h
  | some _ => exact congrArg some (Except.ok.inj h)

instance storeDB [Machine] : Store DB where
  get := DB.get
  contains := DB.contains
  size := DB.size
  entries db := db.ctx.index.entries.map fun e => (e.1, (db.getCached e.1).getD [])
  set db key value := ofOption (db.set key value)
  update db key value := ofOption (db.update key value)
  erase db key := ofOption (db.erase key)

abbrev Table := AList fun _ : Bytes => Bytes

namespace Table

def set (t : Table) (key value : Bytes) : Outcome (Ambry.Result × Table) :=
  if key ∈ t then .ok (⟨.KeyNotInserted, "Could not insert key into index"⟩, t)
  else .ok (.success, t.insert key value)

def update (t : Table) (key value : Bytes) : Outcome (Ambry.Result × Table) :=
  if key ∈ t then .ok (.success, t.insert key value)
  else .ok (⟨.KeyNotFound, "key does not exist in index"⟩, t)

def erase (t : Table) (key : Bytes) : Outcome (Ambry.Result × Table) :=
  if key ∈ t then .ok (.success, AList.erase key t)
  else .ok (⟨.KeyNotFound, "key does not exist in index"⟩, t)

variable {t t' : Table} {key value : Bytes} {res : Ambry.Result}

theorem set_cases (h : t.set key value = .ok (res, t')) :
    t' = t ∨ key ∉ t ∧ t' = t.insert key value := by
  rw [set] at h
  split at h <;> cases h
  · exact .inl rfl
  · exact .inr ⟨by assumption, rfl⟩

theorem update_cases (h : t.update key value = .ok (res, t')) :
    key ∉ t ∧ t' = t ∨ t' = t.insert key value := by
  rw [update] at h
  split at h <;> cases h
  · exact .inr rfl
  · exact .inl ⟨by assumption, rfl⟩

theorem erase_cases (h : t.erase key = .ok (res, t')) :
    t' = t ∨ res.ok ∧ t' = AList.erase key t := by
  rw [erase] at h
  split at h <;> cases h
  · exact .inr ⟨rfl, rfl⟩
  · exact .inl rfl

theorem lookup_of_erase (h : t.erase key = .ok (res, t')) : t'.lookup key = none := by
  rw [erase] at h
  split at h <;> cases h
  · exact AList.lookup_erase key t
  case isFalse.refl hnew => exact AList.lookup_eq_none.mpr hnew

end Table

instance storeTable : Store Table where
  get t key := t.lookup key
  contains t key := decide (key ∈ t)
  size t := t.entries.length
  entries t := t.entries.map fun e => (e.1, e.2)
  set := Table.set
  update := Table.update
  erase := Table.erase

abbrev Disk := AList fun _ : Bytes => Table

structure Volume where
  name : Bytes
  table : Table

namespace Volume

def write (op : Table → Outcome (Ambry.Result × Table)) : Method Volume Disk Ambry.Result
  | v, disk => do
    let (res, table) ← op v.table
    return (res, { v with table }, disk.insert v.name table)

def unlink (name : Bytes) (disk : Disk) (message : String) : Ambry.Result × Disk :=
  if name ∈ disk then (.success, disk.erase name) else (⟨.IoFailure, message⟩, disk)

theorem le_foldr_max {n : Nat} {used : List Nat} (h : n ∈ used) : n ≤ used.foldr max 0 := by
  induction used with
  | nil => cases h
  | cons m used ih =>
    rw [List.foldr_cons]
    obtain rfl | h := List.mem_cons.mp h
    · exact Nat.le_max_left _ _
    · exact (ih h).trans (Nat.le_max_right _ _)

end Volume

instance databaseVolume : Database Volume Disk where
  new name := ⟨name, ∅⟩
  name := Volume.name
  size v := v.table.entries.length
  isCached _ := true
  «open» v disk :=
    let table := (disk.lookup v.name).getD ∅
    .ok (.success, { v with table }, disk.insert v.name table)
  close v disk := .ok ((), { v with table := ∅ }, disk)
  destroy v disk :=
    let (res, disk) := Volume.unlink v.name disk "could not delete db file"
    .ok (res, v, disk)
  switchCache _ v disk := .ok ((), v, disk)
  get key v disk := .ok (v.table.lookup key, v, disk)
  getCached key v disk := .ok (v.table.lookup key, v, disk)
  set key value := Volume.write fun table => table.set key value
  update key value := Volume.write fun table => table.update key value
  erase key := Volume.write fun table => table.erase key
  destroyFiles name disk := .ok (Volume.unlink name disk "No such file or directory")
  alloc _ used := used.foldr max 0 + 1
  alloc_fresh _ _ h := Nat.not_succ_le_self _ (Volume.le_foldr_max h)

/-- The interpreter of a server that finds these users, and no other files. -/
def serverOn [Machine] (users : Table) : Interpreter Table Volume Disk where
  ct := ∅
  dbt := ∅
  users := users
  roles := (∅ : Table).insert (str "admin") (flagWord ADMIN)
  restrictedDbs := [str "__ACI_USERS__", str "__ACI_ROLES__"]
  logins := ∅
  world := ∅

theorem new_serverOn [Machine] (users : Table) :
    Interpreter.new ∅ users ∅ ∅ = .ok (serverOn users) := rfl

/-- The users of a server that has been set up before. -/
def rootOnly : Table := (∅ : Table).insert (str "root") (field (str "pw") ++ field (str "admin"))

def line (fd : Int) (cmd : String) (args : List String) : Interpreter.Event :=
  .command fd ⟨str cmd, args.map str⟩

end Ambry.Aci
