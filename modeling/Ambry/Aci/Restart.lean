import Ambry.Aci.Administration
import Ambry.Aci.FileRefinement

/-!
# A server that is killed and started again

Nothing is handed over but the files: the users, the roles and the databases are read
anew, nobody is logged in and nothing is open. Over all its lives the server is one
over maps that outlive it.
-/

namespace Ambry.Aci

open Foundation

section
variable {σ δ ω : Type} [Store σ] [Machine]

end

/-- The object is gone; a new one opens its files. -/
def Reread [Machine] (db db' : DB) : Prop := ∃ indet, db.close.open indet = some (.success, db')

/-- The kernel takes back the locks. -/
def FileSystem.left (fs : FileSystem) : FileSystem := { fs with locked := ∅ }

/-- The same records. They are kept in no order. -/
def Reordered (t t' : Table) : Prop := t'.entries.Perm t.entries

theorem Table.exists_reordered (t : Table) {keys : List Bytes} (hperm : keys.Perm t.keys) :
    ∃ t' : Table, t'.keys = keys ∧ Reordered t t' := by
  set record : Bytes → (_ : Bytes) × Bytes := fun k => ⟨k, (t.lookup k).getD []⟩
  have hkeys (ks : List Bytes) : (ks.map record).keys = ks := by
    rw [List.keys, List.map_map]
    exact List.map_id _
  have hentries : t.entries = t.keys.map record := by
    rw [AList.keys, List.keys, List.map_map]
    refine (List.map_id _).symm.trans (List.map_congr_left fun e he => ?_)
    have hlookup : t.lookup e.1 = some e.2 := AList.mem_lookup_iff.mpr he
    simp only [record, Function.comp, hlookup, Option.getD_some, id]
  have hnodup : (keys.map record).NodupKeys := by
    rw [List.NodupKeys, hkeys]
    exact hperm.nodup_iff.mpr t.keys_nodup
  refine ⟨⟨keys.map record, hnodup⟩, hkeys keys, ?_⟩
  rw [Reordered, hentries]
  exact hperm.map record

theorem Reordered.mem_iff {t t' : Table} (h : Reordered t t') (k : Bytes) : k ∈ t' ↔ k ∈ t := by
  rw [mem_iff_lookup, mem_iff_lookup, AList.perm_lookup h]

section
variable [Machine] {users roles users' : Sparing DB} {t userTable roleTable : Table}

/-- The records are there again. -/
theorem Holds.reread (h : Holds users t) (hreread : Reread users users') :
    ∃ t', Reordered t t' ∧ Holds users' t' := by
  obtain ⟨indet, hopen⟩ := hreread
  obtain ⟨slots, hsafe⟩ := h.durable.safe
  have hindex := (hsafe.reopened h.durable.indexRecorded h.durable.small hopen).index
  have hkeys : users'.ctx.index.keys.Perm t.keys := by
    rw [← h.keys]
    exact hindex.map Sigma.fst
  obtain ⟨t', hsame, hperm⟩ := t.exists_reordered hkeys
  obtain ⟨hdurable, hget⟩ := h.durable.reopen hopen
  refine ⟨t', hperm, ⟨hdurable, ?_, ?_⟩, hsame.symm⟩
  · have hoptions : DB.isCached users' = DB.isCached users :=
      congrArg Options.enableCache (DB.open_cases hopen).2.options
    exact hoptions.trans h.cached
  · rw [(Prod.mk.inj hget).2, h.get]
    funext k
    exact (AList.perm_lookup hperm).symm

omit [Machine] in
theorem Table.mem_of_set {key value : Bytes} {res : Ambry.Result} {t' : Table}
    (h : t.set key value = .ok (res, t')) : key ∈ t' ∧ ∀ k ∈ t, k ∈ t' := by
  rw [Table.set] at h
  split at h
  case isTrue hkey =>
    cases h
    exact ⟨hkey, fun _ hk => hk⟩
  case isFalse =>
    cases h
    exact ⟨(AList.mem_insert _).mpr (.inl rfl), fun k hk => (AList.mem_insert _).mpr (.inr hk)⟩

variable [Paths] {fs : FileSystem} {disk : Disk}
  {start s s' : Interpreter (Sparing DB) (Sparing (Tracked FileDB)) FileSystem}
  {ideal : Interpreter Table Volume Disk} {trace : List Moment}

/-- The server holds what the maps hold, and there is a role `admin`. -/
structure Mapped (s : Interpreter (Sparing DB) (Sparing (Tracked FileDB)) FileSystem)
    (ideal : Interpreter Table Volume Disk) : Prop where
  tabled : Tabled ideal.ct
  admin : str "admin" ∈ ideal.roles
  similar : ∃ reserved original, Similar (fun name => name ∉ ownNames)
    (fun (users : Sparing DB) (t : Table) => Holds users t) (Refines ownNames reserved original) s ideal

namespace Mapped

theorem initial (husers : Holds users userTable) (hroles : Holds roles roleTable)
    (hkept : Kept ownNames fs disk) (hstart : Interpreter.new ∅ users roles fs = .ok start) :
    ∃ first, Interpreter.new ∅ userTable roleTable disk = .ok first ∧
      Mapped start.initCommands first.initCommands := by
  obtain ⟨first, hfirst, hsimilar⟩ := ideal_start husers hroles hkept hstart
  refine ⟨first, hfirst, tabled_start hfirst, ?_, _, _, hsimilar⟩
  obtain ⟨⟨res, roles'⟩, hset, hfirst⟩ := bind_eq_ok hfirst
  cases hfirst
  exact (Table.mem_of_set hset).1

theorem advance {e : Interpreter.Event × Result} (h : Mapped s ideal)
    (hstep : Steps Interpreter.next (fun _ _ => True) s e s') :
    ∃ ideal', Steps Interpreter.next (fun _ _ => True) ideal e ideal' ∧ Mapped s' ideal' := by
  obtain ⟨reserved, original, hsimilar⟩ := h.similar
  obtain ⟨ideal', hideal, hsimilar'⟩ :=
    hsimilar.step sparingTable_follows (files_refine ownNames reserved original) hstep
  have hhandle := toOption_eq_some.mp hideal.2
  refine ⟨ideal', hideal, tabled_handle h.tabled hhandle, ?_, reserved, original, hsimilar'⟩
  obtain hsame | ⟨_, _, _, hset, _⟩ := (handle_roles h.tabled hhandle).1
  · exact hsame ▸ h.admin
  · exact (Table.mem_of_set hset).2 _ h.admin

end Mapped

end

section
attribute [local instance] littleEndian noLinks

end

end Ambry.Aci
