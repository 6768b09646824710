import Ambry.Aci.Isolation
import Ambry.Aci.Simulation
import Ambry.Lib.Durability

/-!
# Use with care

What the library asks of those who write to a database is not checked by anybody.
Here are the objects of the server as they would be if it were: a call that the
library is not made for does not return. The users and the roles, used with care, are
maps.
-/

namespace Ambry.Aci

open Foundation

/-- Objects of a kind, used with care. -/
def Sparing (δ : Type) : Type := δ

section
variable [Machine]

/-- One operation, if it leaves alone what belongs to others and the files can be opened again
after it. -/
def spare (db : DB) (op : DB.Op) : Outcome (Ambry.Result × DB) :=
  if DB.Spares db op then do
    let (res, db) ← ofOption (db.apply op)
    if db.Small then return (res, db) else .error .stuck
  else .error .stuck

instance storeSparing : Store (Sparing DB) where
  get := DB.get
  contains := DB.contains
  size := DB.size
  entries := Store.entries (σ := DB)
  set db key value := spare db (.set key value)
  update db key value := spare db (.update key value)
  erase db key := spare db (.erase key)

theorem spare_eq_ok {db db' : DB} {op : DB.Op} {res : Ambry.Result}
    (h : spare db op = .ok (res, db')) :
    DB.Spares db op ∧ db.apply op = some (res, db') ∧ db'.Small := by
  rw [spare] at h
  split at h
  case isTrue hspares =>
    obtain ⟨⟨res', db₁⟩, happly, h⟩ := bind_eq_ok h
    dsimp only at h
    split at h
    case isTrue hsmall =>
      cases h
      exact ⟨hspares, ofOption_eq_ok happly, hsmall⟩
    case isFalse => cases h
  case isFalse => cases h

/-- What is done with care could be done without. -/
theorem spare_follows (db : DB) (op : DB.Op) :
    Follows Eq (spare db op) (ofOption (db.apply op)) := by
  rintro ⟨res, db'⟩ h
  exact ⟨(res, db'), congrArg ofOption (spare_eq_ok h).2.1, rfl⟩

theorem sparingStore_follows :
    StoreFollows fun (users : Sparing DB) (users' : DB) => users = users' where
  get _ _ h := by cases h; rfl
  contains _ _ h := by cases h; rfl
  size _ _ h := by cases h; rfl
  entries _ _ h := by cases h; rfl
  set := by
    rintro db _ rfl key value
    exact (spare_follows db (.set key value)).mono fun _ _ h => by cases h; exact ⟨rfl, rfl⟩
  update := by
    rintro db _ rfl key value
    exact (spare_follows db (.update key value)).mono fun _ _ h => by cases h; exact ⟨rfl, rfl⟩
  erase := by
    rintro db _ rfl key
    exact (spare_follows db (.erase key)).mono fun _ _ h => by cases h; exact ⟨rfl, rfl⟩

end

/-! ### The records of a database as a map -/

namespace Table

def apply (t : Table) : DB.Op → Outcome (Ambry.Result × Table)
  | .set key value => t.set key value
  | .update key value => t.update key value
  | .erase key => t.erase key

theorem lookup_insert_eq (t : Table) (key value : Bytes) :
    (fun k => (t.insert key value).lookup k) =
      Function.update (fun k => t.lookup k) key (some value) := by
  funext k
  rcases eq_or_ne k key with rfl | hne
  · rw [Function.update_self, AList.lookup_insert]
  · rw [Function.update_of_ne hne, AList.lookup_insert_ne hne]

theorem lookup_erase_eq (t : Table) (key : Bytes) :
    (fun k => (AList.erase key t).lookup k) = Function.update (fun k => t.lookup k) key none := by
  funext k
  rcases eq_or_ne k key with rfl | hne
  · rw [Function.update_self, AList.lookup_erase]
  · rw [Function.update_of_ne hne, AList.lookup_erase_ne hne]

/-- A table is the map that the operations are about. -/
theorem apply_onMap (t : Table) (op : DB.Op) : ∃ res t', t.apply op = .ok (res, t') ∧
    (res, fun k => t'.lookup k) = op.onMap fun k => t.lookup k := by
  cases op with
  | set key value =>
    cases hkey : t.lookup key with
    | none =>
      exact ⟨_, _, if_neg (AList.lookup_eq_none.mp hkey), by
        simp only [DB.Op.onMap, hkey, lookup_insert_eq]⟩
    | some v => exact ⟨_, _, if_pos (mem_of_lookup hkey), by simp only [DB.Op.onMap, hkey]⟩
  | update key value =>
    cases hkey : t.lookup key with
    | none => exact ⟨_, _, if_neg (AList.lookup_eq_none.mp hkey), by simp only [DB.Op.onMap, hkey]⟩
    | some v =>
      exact ⟨_, _, if_pos (mem_of_lookup hkey), by
        simp only [DB.Op.onMap, hkey, lookup_insert_eq]⟩
  | erase key =>
    cases hkey : t.lookup key with
    | none => exact ⟨_, _, if_neg (AList.lookup_eq_none.mp hkey), by simp only [DB.Op.onMap, hkey]⟩
    | some v =>
      exact ⟨_, _, if_pos (mem_of_lookup hkey), by
        simp only [DB.Op.onMap, hkey, lookup_erase_eq]⟩

end Table

section
variable [Machine] {db db' : DB} {t t' : Table} {op : DB.Op} {res : Ambry.Result}

/-- A database that has been used with care and holds these records. -/
structure Represents (db : DB) (t : Table) : Prop where
  durable : db.Durable
  cached : db.isCached
  get : db.get = fun k => t.lookup k

namespace Represents

theorem mem (h : Represents db t) (k : Bytes) : k ∈ db.ctx.index ↔ k ∈ t := by
  have hget : db.get k = none ↔ t.lookup k = none := by rw [h.get]
  rw [DB.get_eq_none_iff, AList.lookup_eq_none, AList.lookup_eq_none] at hget
  exact not_iff_not.mp hget

theorem size (h : Represents db t) : db.size = t.entries.length := by
  have hperm : db.ctx.index.keys.Perm t.keys :=
    (List.perm_ext_iff_of_nodup db.ctx.index.keys_nodup t.keys_nodup).mpr h.mem
  have hlen := hperm.length_eq
  rwa [AList.keys, AList.keys, List.keys, List.keys, List.length_map, List.length_map] at hlen

theorem getCached (h : Represents db t) (k : Bytes) : db.getCached k = t.lookup k := by
  rw [(h.durable.mirror h.cached).getCached_eq, h.get]

theorem apply (h : Represents db t) (hspares : DB.Spares db op)
    (happly : db.apply op = some (res, db')) (hsmall : db'.Small) :
    ∃ t', t.apply op = .ok (res, t') ∧ Represents db' t' := by
  obtain ⟨hdurable, hget⟩ := h.durable.apply hspares hsmall happly
  obtain ⟨res', t', hop, hmap⟩ := t.apply_onMap op
  rw [h.get, ← hmap] at hget
  obtain ⟨rfl, hrecords⟩ := Prod.mk.inj hget
  refine ⟨t', hop, hdurable, ?_, hrecords⟩
  rw [DB.isCached, DB.apply_options happly]
  exact h.cached

theorem lookup_isSome (h : Represents db t) (k : Bytes) :
    (∃ data, db.ctx.index.lookup k = some data) ↔ k ∈ t := by
  rw [← mem_iff_lookup, h.mem]

/-- The records stand in the same order on both sides. -/
theorem keys_apply (h : Represents db t) (hkeys : db.ctx.index.keys = t.keys)
    (happly : db.apply op = some (res, db')) (hop : t.apply op = .ok (res, t')) :
    db'.ctx.index.keys = t'.keys := by
  cases op with
  | set key value =>
    have hop : t.set key value = .ok (res, t') := hop
    rw [Table.set] at hop
    obtain ⟨hold, _, hdb⟩ | ⟨hnew, _, pos, hout⟩ := DB.set_cases happly
    · rw [if_pos ((h.lookup_isSome key).mp hold)] at hop
      cases hop
      rw [hdb, hkeys]
    · rw [if_neg (mt (h.mem key).mpr (AList.lookup_eq_none.mp hnew))] at hop
      cases hop
      rw [hout.index, AList.keys_insert, AList.keys_insert, hkeys]
  | update key value =>
    have hop : t.update key value = .ok (res, t') := hop
    rw [Table.update] at hop
    obtain ⟨hnew, _, hdb⟩ | ⟨old, hold, _, pos, hout⟩ := DB.update_cases happly
    · rw [if_neg (mt (h.mem key).mpr (AList.lookup_eq_none.mp hnew))] at hop
      cases hop
      rw [hdb, hkeys]
    · rw [if_pos ((h.lookup_isSome key).mp ⟨old, hold⟩)] at hop
      cases hop
      rw [hout.index, AList.keys_insert, AList.keys_insert, hkeys]
  | erase key =>
    have hop : t.erase key = .ok (res, t') := hop
    rw [Table.erase] at hop
    obtain ⟨hnew, _, hdb⟩ | ⟨old, hold, _, hout⟩ := DB.erase_cases happly
    · rw [if_neg (mt (h.mem key).mpr (AList.lookup_eq_none.mp hnew))] at hop
      cases hop
      rw [hdb, hkeys]
    · rw [if_pos ((h.lookup_isSome key).mp ⟨old, hold⟩)] at hop
      cases hop
      rw [hout.index, AList.keys_erase, AList.keys_erase, hkeys]

end Represents

/-- The same records, in the same order. -/
structure Holds (db : DB) (t : Table) : Prop extends Represents db t where
  keys : db.ctx.index.keys = t.keys

theorem Holds.apply (h : Holds db t) (op : DB.Op) :
    Follows (fun a b => a.1 = b.1 ∧ Holds a.2 b.2) (spare db op) (t.apply op) := by
  rintro ⟨res, db'⟩ hspare
  obtain ⟨hspares, happly, hsmall⟩ := spare_eq_ok hspare
  obtain ⟨t', hop, hrepresents⟩ := h.toRepresents.apply hspares happly hsmall
  have hkeys := h.keys_apply h.keys happly hop
  exact ⟨(res, t'), hop, rfl, hrepresents, hkeys⟩

omit [Machine] in
theorem Table.entries_eq (t : Table) :
    (t.entries.map fun e => (e.1, e.2)) = t.keys.map fun k => (k, (t.lookup k).getD []) := by
  rw [AList.keys, List.keys, List.map_map]
  refine List.map_congr_left fun e he => ?_
  rw [Function.comp, AList.mem_lookup_iff.mpr he]
  rfl

theorem sparingTable_follows : StoreFollows fun (users : Sparing DB) (t : Table) => Holds users t where
  get _ _ h := h.get
  contains db t h := by
    funext k
    exact decide_eq_decide.mpr (h.mem k)
  size _ _ h := h.size
  entries db t h := by
    have hentries : (db.ctx.index.entries.map fun e => (e.1, (db.getCached e.1).getD [])) =
        db.ctx.index.keys.map fun k => (k, (t.lookup k).getD []) := by
      simp only [h.getCached, AList.keys, List.keys, List.map_map]
      rfl
    have htable : Store.entries t = t.keys.map fun k => (k, (t.lookup k).getD []) := t.entries_eq
    rw [htable, ← h.keys]
    exact hentries
  set _ _ h key value := h.apply (.set key value)
  update _ _ h key value := h.apply (.update key value)
  erase _ _ h key := h.apply (.erase key)

end

/-! ### The open databases -/

/-- A name that leads nowhere else. -/
def Plain [Paths] (name : Bytes) : Prop := ∀ p ∈ filePaths name, Paths.resolve p = p

instance [Paths] (name : Bytes) : Decidable (Plain name) :=
  inferInstanceAs (Decidable (∀ p ∈ filePaths name, Paths.resolve p = p))

namespace Sparing

variable [Machine]

def write (op : DB.Op) (m : Method (Tracked FileDB) FileSystem Ambry.Result) :
    Method (Tracked FileDB) FileSystem Ambry.Result
  | t, fs =>
    if DB.Spares t.db.db op then do
      let (res, t, fs) ← m t fs
      if t.db.db.Small then return (res, t, fs) else .error .stuck
    else .error .stuck

theorem write_eq_ok {op : DB.Op} {m : Method (Tracked FileDB) FileSystem Ambry.Result}
    {t t' : Tracked FileDB} {fs fs' : FileSystem} {res : Ambry.Result}
    (h : write op m t fs = .ok (res, t', fs')) :
    DB.Spares t.db.db op ∧ m t fs = .ok (res, t', fs') ∧ t'.db.db.Small := by
  rw [write] at h
  split at h
  case isTrue hspares =>
    obtain ⟨⟨res₁, t₁, fs₁⟩, hm, h⟩ := bind_eq_ok h
    dsimp only at h
    split at h
    case isTrue hsmall =>
      cases h
      exact ⟨hspares, hm, hsmall⟩
    case isFalse => cases h
  case isFalse => cases h

theorem write_follows (op : DB.Op) (m : Method (Tracked FileDB) FileSystem Ambry.Result)
    (t : Tracked FileDB) (fs : FileSystem) : Follows Eq (write op m t fs) (m t fs) := by
  rintro ⟨res, t', fs'⟩ h
  exact ⟨(res, t', fs'), (write_eq_ok h).2.1, rfl⟩

variable [Paths]

/-- Databases of plain names, whose cache is never switched. -/
instance database : Database (Sparing (Tracked FileDB)) FileSystem where
  new := Database.new (δ := Tracked FileDB)
  name := Database.name (δ := Tracked FileDB)
  size := Database.size (δ := Tracked FileDB)
  isCached := Database.isCached (δ := Tracked FileDB)
  «open» t fs := if Plain (Database.name (δ := Tracked FileDB) t) then
    Database.open (δ := Tracked FileDB) t fs else .error .stuck
  close := Database.close (δ := Tracked FileDB)
  destroy := Database.destroy (δ := Tracked FileDB)
  switchCache _ _ _ := .error .stuck
  get := Database.get (δ := Tracked FileDB)
  getCached := Database.getCached (δ := Tracked FileDB)
  set key value := write (.set key value) (Database.set key value)
  update key value := write (.update key value) (Database.update key value)
  erase key := write (.erase key) (Database.erase key)
  destroyFiles name fs := if Plain name then
    Database.destroyFiles (Tracked FileDB) name fs else .error .stuck
  alloc := Database.alloc (Tracked FileDB)
  alloc_fresh := Database.alloc_fresh (δ := Tracked FileDB)

theorem call_follows {α : Type} {m : Method (Sparing (Tracked FileDB)) FileSystem α}
    {m' : Method (Tracked FileDB) FileSystem α} (hm : SameCall m m') (t : Tracked FileDB)
    (fs : FileSystem) : Follows Eq (m t fs) (m' t fs) := by
  cases hm with
  | switchCache on => exact .error
  | get key => exact .refl _
  | getCached key => exact .refl _
  | set key value => exact write_follows _ _ t fs
  | update key value => exact write_follows _ _ t fs
  | erase key => exact write_follows _ _ t fs

omit [Machine] in
theorem plain_eq_ok {α : Type} {name : Bytes} {x : Outcome α} {a : α}
    (h : (if Plain name then x else .error .stuck) = .ok a) : Plain name ∧ x = .ok a := by
  split at h
  case isTrue hplain => exact ⟨hplain, h⟩
  case isFalse => cases h

theorem files_follow (allowed : Bytes → Prop) : DatabasesFollow allowed
    fun (dbt : DBTable (Sparing (Tracked FileDB))) fs (dbt' : DBTable (Tracked FileDB)) fs' =>
      dbt = dbt' ∧ fs = fs' where
  faces := by
    rintro dbt fs _ _ ⟨rfl, rfl⟩
    rfl
  alloc := by
    rintro dbt fs _ _ ⟨rfl, rfl⟩ used
    rfl
  call := by
    rintro dbt fs _ _ ⟨rfl, rfl⟩ name node node' hnode hnode' α m m' hm
    cases hnode.symm.trans hnode'
    exact (call_follows hm node.db fs).mono fun _ _ h => by cases h; exact ⟨rfl, rfl, rfl⟩
  «open» := by
    rintro dbt fs _ _ ⟨rfl, rfl⟩ name addr _ _ ⟨res, t, fs'⟩ hopen
    refine ⟨(res, t, fs'), (plain_eq_ok hopen).2, rfl, rfl, rfl⟩
  close := by
    rintro dbt fs _ _ ⟨rfl, rfl⟩ name node node' hnode hnode'
    cases hnode.symm.trans hnode'
    exact (Follows.refl _).mono fun _ _ h => by cases h; exact ⟨rfl, rfl⟩
  destroy := by
    rintro dbt fs _ _ ⟨rfl, rfl⟩ name node node' hnode hnode'
    cases hnode.symm.trans hnode'
    exact (Follows.refl _).mono fun _ _ h => by cases h; exact ⟨rfl, rfl, rfl⟩
  clear := by
    rintro dbt fs _ _ ⟨rfl, rfl⟩
    exact ⟨rfl, rfl⟩
  destroyFiles := by
    rintro dbt fs _ _ ⟨rfl, rfl⟩ name _ _ ⟨res, fs'⟩ hdestroy
    exact ⟨(res, fs'), (plain_eq_ok hdestroy).2, rfl, rfl, rfl⟩

end Sparing

end Ambry.Aci
