import Ambry.Aci.FileSystem
import Ambry.Aci.Wiring
import Ambry.Foundation.Lookup
import Ambry.Foundation.Run
import Ambry.Lib.Outcome

/-!
# The open table

Every entry of the table should be a database whose last `open` succeeded and
that was not closed or destroyed since. Three commands leave other entries
behind: an `open` of a new name that fails, a `destroy` of an open database, and a
`destroy_all` that fails on the way. Without these the table keeps its promise.
-/

namespace Ambry.Aci

open Foundation Interpreter

/-! ### A property of every entry -/

section
variable {δ : Type}

def Each (P : Bytes → δ → Prop) (dbt : DBTable δ) : Prop :=
  ∀ name node, dbt.lookup name = some node → P name node.db

namespace Each

variable {P Q : Bytes → δ → Prop} {dbt : DBTable δ}

theorem empty : Each P (∅ : DBTable δ) := by
  intro name node hnode
  rw [AList.lookup_empty] at hnode
  cases hnode

theorem insert (h : Each P dbt) {name : Bytes} {node : Node δ} (hnew : P name node.db) :
    Each P (dbt.insert name node) := by
  intro other node' hnode'
  obtain ⟨rfl, rfl⟩ | ⟨_, hnode'⟩ := lookup_insert_cases hnode'
  · exact hnew
  · exact h other node' hnode'

theorem erase (h : Each P dbt) (name : Bytes) : Each P (dbt.erase name) := by
  intro other node hnode
  exact h other node (lookup_erase_some hnode).2

theorem entry (h : Each P dbt) {e : Σ _ : Bytes, Node δ} (he : e ∈ dbt.entries) : P e.1 e.2.db :=
  h e.1 e.2 (AList.mem_lookup_iff.mpr he)

end Each

end

section
variable {σ δ ω : Type} [Store σ] [Database δ ω] {s s' : Interpreter σ δ ω} {cmd : Cmd} {fd : Int}
  {fn : CmdFN} {r : Result}

omit [Store σ] in
theorem destroyEach_each {P : Bytes → δ → Prop} {entries : List (Σ _ : Bytes, Node δ)}
    {dbt dbt' : DBTable δ} {world world' : ω} {res : Ambry.Result}
    (h : destroyEach entries dbt world = .ok (res, dbt', world')) (hdbt : Each P dbt)
    (hentries : ∀ e ∈ entries, ∀ {world res db world'},
      Database.destroy e.2.db world = .ok (res, db, world') → P e.1 db) : Each P dbt' := by
  induction entries generalizing dbt world with
  | nil =>
    cases h
    exact hdbt
  | cons e entries ih =>
    obtain ⟨name, node⟩ := e
    obtain ⟨⟨res₁, db, world₁⟩, hdestroy, h⟩ := bind_eq_ok h
    have hhead : Each P (dbt.insert name { node with db }) :=
      hdbt.insert (hentries ⟨name, node⟩ List.mem_cons_self hdestroy)
    dsimp only at h
    split at h
    · exact ih h hhead fun e he => hentries e (List.mem_cons_of_mem _ he)
    · cases h
      exact hhead

/-- A property of all entries that the calls on them keep, and that what is left in the table by
the three commands has. -/
theorem Effect.each {P : Bytes → δ → Prop} (heffect : Effect s cmd fd fn r s') (h : Each P s.dbt)
    (htouched : ∀ {name db world db' world'}, P name db → Touched db world db' world' → P name db')
    (hopened : ∀ {name rest res db world}, fn = .openCb → cmd.args = name :: rest →
      name ∉ s.restrictedDbs → s.dbt.lookup name = none →
      Database.open (Database.new name) s.world = .ok (res, db, world) → P name db)
    (hdestroyed : ∀ {name rest node res db world}, fn = .destroyCb → cmd.args = name :: rest →
      name ∉ s.restrictedDbs → s.dbt.lookup name = some node →
      Database.destroy node.db s.world = .ok (res, db, world) → P name db)
    (hsome : ∀ {res dbt world}, fn = .destroyAllCb →
      destroyEach s.dbt.entries s.dbt s.world = .ok (res, dbt, world) → ¬ res.ok → Each P dbt) :
    Each P s'.dbt := by
  cases heffect with
  | refused | answered | switched | unlinked | roles | createdFirst | createdUser | addedRoles
  | removedRoles | deletedUser | loggedIn | loggedOut => exact h
  | onWdb _ hnode hcall => exact h.insert (htouched (h _ _ (derefWdb_lookup hnode)) hcall)
  | opened hargs hallowed hnew _ hopen => exact h.insert (hopened rfl hargs hallowed hnew hopen)
  | closed => exact h.erase _
  | closedAll | destroyedAll => exact .empty
  | destroyed hargs hallowed hnode hdestroy =>
    exact h.insert (hdestroyed rfl hargs hallowed hnode hdestroy)
  | destroyedSome hdestroy hfail => exact hsome rfl hdestroy hfail

end

/-! ### Objects that know their last call -/

/-- The last call that opened, closed or destroyed an object, with its result. -/
inductive Life
  | opened (res : Ambry.Result)
  | closed
  | destroyed (res : Ambry.Result)
  deriving DecidableEq, Repr

structure Tracked (δ : Type) where
  db : δ
  life : Option Life := none

namespace Tracked

variable {δ ω α : Type}

def on (mark : α → Option Life → Option Life) (m : Method δ ω α) : Method (Tracked δ) ω α
  | t, world => do
    let (a, db, world) ← m t.db world
    return (a, ⟨db, mark a t.life⟩, world)

instance database [Database δ ω] : Database (Tracked δ) ω where
  new name := ⟨Database.new name, none⟩
  name t := Database.name t.db
  size t := Database.size t.db
  isCached t := Database.isCached t.db
  «open» := on (fun res _ => some (.opened res)) Database.open
  close := on (fun _ _ => some .closed) Database.close
  destroy := on (fun res _ => some (.destroyed res)) Database.destroy
  switchCache b := on (fun _ life => life) (Database.switchCache b)
  get key := on (fun _ life => life) (Database.get key)
  getCached key := on (fun _ life => life) (Database.getCached key)
  set key value := on (fun _ life => life) (Database.set key value)
  update key value := on (fun _ life => life) (Database.update key value)
  erase key := on (fun _ life => life) (Database.erase key)
  destroyFiles := Database.destroyFiles δ
  alloc := Database.alloc δ
  alloc_fresh := Database.alloc_fresh

/-- The last `open` succeeded, and the object was not closed or destroyed since. -/
def Usable (t : Tracked δ) : Prop := ∃ res, t.life = some (.opened res) ∧ res.ok

theorem on_eq_ok {mark : α → Option Life → Option Life} {m : Method δ ω α} {t t' : Tracked δ}
    {world world' : ω} {a : α} (h : on mark m t world = .ok (a, t', world')) :
    m t.db world = .ok (a, t'.db, world') ∧ t'.life = mark a t.life := by
  obtain ⟨⟨a, db, world⟩, hm, h⟩ := bind_eq_ok h
  cases h
  exact ⟨hm, rfl⟩

theorem touched [Database δ ω] {t t' : Tracked δ} {world world' : ω}
    (h : Touched t world t' world') : Touched t.db world t'.db world' ∧ t'.life = t.life := by
  cases h with
  | switchCache on h =>
    obtain ⟨hcall, hlife⟩ := on_eq_ok h
    exact ⟨.switchCache on hcall, hlife⟩
  | get key value h =>
    obtain ⟨hcall, hlife⟩ := on_eq_ok h
    exact ⟨.get key value hcall, hlife⟩
  | getCached key value h =>
    obtain ⟨hcall, hlife⟩ := on_eq_ok h
    exact ⟨.getCached key value hcall, hlife⟩
  | set key value res h =>
    obtain ⟨hcall, hlife⟩ := on_eq_ok h
    exact ⟨.set key value res hcall, hlife⟩
  | update key value res h =>
    obtain ⟨hcall, hlife⟩ := on_eq_ok h
    exact ⟨.update key value res hcall, hlife⟩
  | erase key res h =>
    obtain ⟨hcall, hlife⟩ := on_eq_ok h
    exact ⟨.erase key res hcall, hlife⟩

end Tracked

/-! ### Objects with files -/

section
variable [Machine] [Paths] {f f' : FileDB} {fs fs' : FileSystem}

omit [Machine] [Paths] in
theorem on_keeps {α : Type} {op : DB → Option (α × DB)} {a : α}
    (hop : ∀ {a db'}, op f.db = some (a, db') → db'.name = f.db.name)
    (h : FileDB.on op f fs = .ok (a, f', fs')) : f'.db.name = f.db.name ∧ fs'.dir = fs.dir := by
  obtain ⟨dat, idx, free, db, _, hcall, rfl, rfl⟩ := FileDB.on_eq_ok h
  exact ⟨hop hcall, rfl⟩

/-- The calls that neither open nor close a database keep its name and the directory. -/
theorem touched_keeps (h : Touched f fs f' fs') : f'.db.name = f.db.name ∧ fs'.dir = fs.dir := by
  cases h with
  | switchCache on h =>
    cases on with
    | true =>
      have hon : FileDB.on (fun db => some ((), db.switchCache true)) f fs = .ok ((), f', fs') := h
      refine on_keeps ?_ hon
      intro a db' hcall
      cases hcall
      rfl
    | false =>
      cases h
      exact ⟨rfl, rfl⟩
  | get key value h =>
    refine on_keeps ?_ h
    intro a db' hcall
    cases hcall
    rfl
  | getCached key value h =>
    cases h
    exact ⟨rfl, rfl⟩
  | set key value res h => exact on_keeps DB.set_name h
  | update key value res h => exact on_keeps DB.update_name h
  | erase key res h => exact on_keeps DB.erase_name h

variable {entries : List (Σ _ : Bytes, Node (Tracked FileDB))} {dbt dbt' : DBTable (Tracked FileDB)}
  {res : Ambry.Result}

def entryPaths (e : Σ _ : Bytes, Node (Tracked FileDB)) : List Bytes := filePaths e.2.db.db.db.name

/-- `destroy_all` removes the files of all entries, one after the other. -/
theorem destroyEach_eq (h : destroyEach entries dbt fs = .ok (res, dbt', fs')) :
    let out := fs.unlinkEach (fun _ => "could not delete db file") (entries.flatMap entryPaths)
    res = out.1 ∧ fs'.dir = out.2.dir := by
  induction entries generalizing dbt fs with
  | nil =>
    cases h
    exact ⟨rfl, rfl⟩
  | cons e entries ih =>
    obtain ⟨name, node⟩ := e
    obtain ⟨⟨res₁, t, fs₁⟩, hdestroy, h⟩ := bind_eq_ok h
    obtain ⟨hcall, _⟩ := Tracked.on_eq_ok hdestroy
    obtain ⟨_, rfl, rfl⟩ := FileDB.destroy_eq_ok hcall
    rw [List.flatMap_cons, FileSystem.unlinkEach_append]
    dsimp only at h
    split at h
    case isTrue hok =>
      have hrest := ih h
      rw [FileSystem.unlinkEach_unlock] at hrest
      simp only [entryPaths, hok, if_true]
      exact hrest
    case isFalse hfail =>
      cases h
      simp only [entryPaths, hfail]
      exact ⟨rfl, rfl⟩

theorem destroyEach_ok_iff (h : destroyEach entries dbt fs = .ok (res, dbt', fs')) :
    res.ok ↔ fs.Removable (entries.flatMap entryPaths) := by
  rw [(destroyEach_eq h).1]
  exact FileSystem.unlinkEach_ok_iff

theorem destroyEach_absent (h : destroyEach entries dbt fs = .ok (res, dbt', fs')) {place : Bytes}
    (habsent : place ∉ fs.dir) : place ∉ fs'.dir := by
  rw [(destroyEach_eq h).2]
  exact FileSystem.unlinkEach_absent habsent

theorem destroyEach_removed (h : destroyEach entries dbt fs = .ok (res, dbt', fs')) (hok : res.ok)
    {e : Σ _ : Bytes, Node (Tracked FileDB)} (he : e ∈ entries) {path : Bytes}
    (hpath : path ∈ entryPaths e) : Paths.resolve path ∉ fs'.dir := by
  obtain ⟨rfl, hdir⟩ := destroyEach_eq h
  rw [hdir]
  exact FileSystem.unlinkEach_removed hok (List.mem_flatMap_of_mem he hpath)

/-- A failure leaves an entry behind that was destroyed. -/
theorem destroyEach_fails (h : destroyEach entries dbt fs = .ok (res, dbt', fs'))
    (hfail : ¬ res.ok) : ∃ name node, dbt'.lookup name = some node ∧ ¬ node.db.Usable := by
  induction entries generalizing dbt fs with
  | nil =>
    cases h
    exact absurd rfl hfail
  | cons e entries ih =>
    obtain ⟨name, node⟩ := e
    obtain ⟨⟨res₁, t, fs₁⟩, hdestroy, h⟩ := bind_eq_ok h
    obtain ⟨_, hlife⟩ := Tracked.on_eq_ok hdestroy
    dsimp only at h
    split at h
    · exact ih h
    · cases h
      refine ⟨name, _, AList.lookup_insert _, ?_⟩
      rintro ⟨res', hopened, _⟩
      rw [hlife] at hopened
      cases hopened

/-- Closing removes no names. -/
theorem closeEach_dir (h : closeEach fs entries = .ok fs') : fs'.dir = fs.dir := by
  induction entries generalizing fs with
  | nil =>
    cases h
    rfl
  | cons e entries ih =>
    obtain ⟨fs₁, hclose, h⟩ := bind_eq_ok h
    obtain ⟨⟨_, t, fs₂⟩, hclose, hfs⟩ := bind_eq_ok hclose
    cases hfs
    obtain ⟨hcall, _⟩ := Tracked.on_eq_ok hclose
    rw [ih h, (FileDB.close_eq_ok hcall).2]
    rfl

end

/-! ### The condition -/

section
variable [Machine] [Paths] {σ : Type} [Store σ]

/-- The server with objects that know their last call. -/
abbrev FileServer (σ : Type) := Interpreter σ (Tracked FileDB) FileSystem

def AllUsable (dbt : DBTable (Tracked FileDB)) : Prop := Each (fun _ t => t.Usable) dbt

def Named (dbt : DBTable (Tracked FileDB)) : Prop := Each (fun name t => t.db.db.name = name) dbt

/-- A new name is opened while `DB::open` fails, an open database is destroyed, or all are destroyed
while one of the `unlink` calls fails. -/
def Spoiling (s : FileServer σ) (args : List Bytes) : CmdFN → Prop
  | .openCb => ∃ name ∈ args.head?, name ∉ s.restrictedDbs ∧ name ∉ s.dbt ∧
      s.world.OpenFails
  | .destroyCb => ∃ name ∈ args.head?, name ∉ s.restrictedDbs ∧ name ∈ s.dbt
  | .destroyAllCb => ¬ s.world.Removable (s.dbt.keys.flatMap filePaths)
  | _ => False

def Spoils (s : FileServer σ) : Event → Prop
  | .command fd cmd => ∃ ch ∈ s.ct.lookup cmd.cmd, s.Passes cmd fd ch ∧ Spoiling s cmd.args ch.fn
  | .hangup _ => False

instance Spoiling.decidable (s : FileServer σ) (args : List Bytes) :
    ∀ fn, Decidable (Spoiling s args fn)
  | .openCb => inferInstanceAs (Decidable (∃ name ∈ args.head?, name ∉ s.restrictedDbs ∧
      name ∉ s.dbt ∧ s.world.OpenFails))
  | .destroyCb => inferInstanceAs (Decidable (∃ name ∈ args.head?, name ∉ s.restrictedDbs ∧
      name ∈ s.dbt))
  | .destroyAllCb =>
    inferInstanceAs (Decidable (¬ s.world.Removable (s.dbt.keys.flatMap filePaths)))
  | .null | .closeCb | .switchCb | .cacheModeCb | .setCb | .getCb | .closeAllCb | .cmdsCb
  | .updateCb | .eraseCb | .listOpenCb | .createUserCb | .createRoleCb | .loginCb | .addRolesCb
  | .removeRolesCb | .logoutCb | .deleteUserCb | .deleteRoleCb | .activeUsersCb | .showRolesCb
  | .userRolesCb | .showUsersCb | .workingDbCb => inferInstanceAs (Decidable False)

instance Spoils.decidable (s : FileServer σ) : ∀ e, Decidable (Spoils s e)
  | .command fd cmd => inferInstanceAs (Decidable (∃ ch ∈ s.ct.lookup cmd.cmd,
      s.Passes cmd fd ch ∧ Spoiling s cmd.args ch.fn))
  | .hangup _ => inferInstanceAs (Decidable False)

/-- The names share a file. -/
def Shares (m n : Bytes) : Prop :=
  ∃ p ∈ filePaths m, ∃ q ∈ filePaths n, Paths.resolve p = Paths.resolve q

/-- The event asks for a database that has files with this one in common. -/
def Reopens (name : Bytes) : Event → Prop
  | .command _ cmd => cmd.cmd = str "open" ∧ ∃ m ∈ cmd.args.head?, Shares m name
  | .hangup _ => False

instance Reopens.decidable (name : Bytes) : ∀ e, Decidable (Reopens name e)
  | .command _ cmd => inferInstanceAs (Decidable (cmd.cmd = str "open" ∧ ∃ m ∈ cmd.args.head?,
      ∃ p ∈ filePaths m, ∃ q ∈ filePaths name, Paths.resolve p = Paths.resolve q))
  | .hangup _ => inferInstanceAs (Decidable False)

def Destroys (s : FileServer σ) (name : Bytes) : Event → Prop
  | .command _ cmd => (cmd.cmd = str "destroy" ∧ cmd.args.head? = some name) ∨
      (cmd.cmd = str "destroy_all" ∧ name ∈ s.dbt)
  | .hangup _ => False

variable {s s' : FileServer σ} {cmd : Cmd} {fd : Int} {fn : CmdFN} {r : Result}

omit [Machine] [Paths] in
theorem flatMap_entryPaths {dbt : DBTable (Tracked FileDB)} (h : Named dbt) :
    dbt.entries.flatMap entryPaths = dbt.keys.flatMap filePaths := by
  rw [AList.keys, List.keys, List.flatMap_map]
  refine List.flatMap_congr fun e he => ?_
  rw [entryPaths, h.entry he]

theorem Effect.named (heffect : Effect s cmd fd fn r s') (h : Named s.dbt) : Named s'.dbt := by
  refine Effect.each heffect h ?_ ?_ ?_ ?_
  · intro name t fs t' fs' hname hcall
    obtain ⟨hcall, _⟩ := Tracked.touched hcall
    exact (touched_keeps hcall).1.trans hname
  · intro name rest res t fs _ _ _ _ hopen
    obtain ⟨hcall, _⟩ := Tracked.on_eq_ok hopen
    exact FileDB.open_name hcall
  · intro name rest node res t fs _ _ _ hnode hdestroy
    obtain ⟨hcall, _⟩ := Tracked.on_eq_ok hdestroy
    rw [(FileDB.destroy_eq_ok hcall).1]
    exact h name node hnode
  · intro res dbt fs _ hdestroy _
    apply destroyEach_each hdestroy h
    intro e he fs res t fs' hdestroy
    obtain ⟨hcall, _⟩ := Tracked.on_eq_ok hdestroy
    rw [(FileDB.destroy_eq_ok hcall).1]
    exact h.entry he

/-! ### What one command leaves in the table -/

theorem Effect.usable (heffect : Effect s cmd fd fn r s') (h : AllUsable s.dbt) (hnamed : Named s.dbt)
    (hgood : ¬ Spoiling s cmd.args fn) : AllUsable s'.dbt := by
  refine Effect.each heffect h ?_ ?_ ?_ ?_
  · intro name t fs t' fs' husable hcall
    obtain ⟨res, hlife, hok⟩ := husable
    exact ⟨res, (Tracked.touched hcall).2.trans hlife, hok⟩
  · rintro name rest res t fs rfl hargs hallowed hnew hopen
    obtain ⟨hcall, hlife⟩ := Tracked.on_eq_ok hopen
    refine ⟨res, hlife, (FileDB.open_ok_iff hcall).mpr ?_⟩
    intro hfails
    refine hgood ⟨name, ?_, hallowed, AList.lookup_eq_none.mp hnew, hfails⟩
    rw [hargs, List.head?_cons]
    rfl
  · rintro name rest node res t fs rfl hargs hallowed hnode _
    refine absurd ⟨name, ?_, hallowed, mem_of_lookup hnode⟩ hgood
    rw [hargs, List.head?_cons]
    rfl
  · rintro res dbt fs rfl hdestroy hfail
    refine absurd ((destroyEach_ok_iff hdestroy).mpr ?_) hfail
    rw [flatMap_entryPaths hnamed]
    exact Decidable.not_not.mp hgood

omit [Machine] [Paths] in
theorem not_allUsable {dbt : DBTable (Tracked FileDB)} {name : Bytes}
    {node : Node (Tracked FileDB)} (hnode : dbt.lookup name = some node)
    (h : ¬ node.db.Usable) : ¬ AllUsable dbt :=
  fun hall => h (hall name node hnode)

/-- The three commands do leave such an entry. -/
theorem spoiling_leaves (hnamed : Named s.dbt) (hbad : Spoiling s cmd.args fn)
    (h : callFn fn cmd fd s = .ok (r, s')) : ¬ AllUsable s'.dbt := by
  cases fn with
  | openCb =>
    obtain ⟨name, hname, hallowed, hnew, hfails⟩ := hbad
    obtain ⟨rest, hargs⟩ := List.head?_eq_some_iff.mp hname
    obtain ⟨res, addr, t, fs, login, _, hopen, _, _, rfl⟩ :=
      openCb_new hargs hallowed (AList.lookup_eq_none.mpr hnew) h
    obtain ⟨hcall, hlife⟩ := Tracked.on_eq_ok hopen
    apply not_allUsable (AList.lookup_insert _)
    rintro ⟨res', hopened, hok⟩
    rw [hlife] at hopened
    cases hopened
    exact (FileDB.open_ok_iff hcall).mp hok hfails
  | destroyCb =>
    obtain ⟨name, hname, hallowed, hmem⟩ := hbad
    obtain ⟨rest, hargs⟩ := List.head?_eq_some_iff.mp hname
    obtain ⟨node, hnode⟩ := mem_iff_lookup.mp hmem
    obtain ⟨res, t, fs, login, hdestroy, _, _, rfl⟩ := destroyCb_open hargs hallowed hnode h
    obtain ⟨_, hlife⟩ := Tracked.on_eq_ok hdestroy
    apply not_allUsable (AList.lookup_insert _)
    rintro ⟨res', hopened, _⟩
    rw [hlife] at hopened
    cases hopened
  | destroyAllCb =>
    have hcall : destroyAllCb cmd fd s = .ok (r, s') := h
    obtain ⟨res, dbt, fs, hdestroy, ⟨hok, _⟩ | ⟨hfail, _, rfl⟩⟩ := destroyAllCb_cases hcall
    · refine absurd ?_ hbad
      rw [← flatMap_entryPaths hnamed]
      exact (destroyEach_ok_iff hdestroy).mp hok
    · obtain ⟨name, node, hnode, hdead⟩ := destroyEach_fails hdestroy hfail
      exact not_allUsable hnode hdead
  | _ => exact absurd hbad id

theorem handle_named {e : Event} (h : Named s.dbt) (hstep : s.handle e = .ok (r, s')) :
    Named s'.dbt := by
  obtain ⟨fd, cmd, rfl, ⟨_, rfl⟩ | ⟨ch, _, heffect⟩⟩ | ⟨fd, rfl, rfl⟩ := handle_cases hstep
  · exact h
  · exact heffect.named h
  · exact h

theorem handle_usable_iff {e : Event} (h : AllUsable s.dbt) (hnamed : Named s.dbt)
    (hstep : s.handle e = .ok (r, s')) : AllUsable s'.dbt ↔ ¬ Spoils s e := by
  constructor
  · intro husable hbad
    cases e with
    | command fd cmd =>
      obtain ⟨ch, _, hpasses, hbad⟩ := hbad
      have hcall := (interpret_of_passes hpasses).symm.trans hstep
      exact spoiling_leaves hnamed hbad hcall husable
    | hangup fd => exact hbad
  · intro hgood
    obtain ⟨fd, cmd, rfl, ⟨_, rfl⟩ | ⟨ch, hpasses, heffect⟩⟩ | ⟨fd, rfl, rfl⟩ :=
      handle_cases hstep
    · exact h
    · exact heffect.usable h hnamed fun hbad => hgood ⟨ch, hpasses.lookup, hpasses, hbad⟩
    · exact h

theorem Effect.openCb_cases (heffect : Effect s cmd fd .openCb r s') :
    (¬ r.ok ∧ s' = s) ∨
    (r.ok ∧ ∃ name rest, cmd.args = name :: rest ∧ name ∈ s.dbt) ∨
    ∃ name rest res addr t fs, cmd.args = name :: rest ∧ name ∉ s.restrictedDbs ∧ name ∉ s.dbt ∧
      Database.open (Database.new name : Tracked FileDB) s.world = .ok (res, t, fs) ∧
      r = toRes res ∧ s'.dbt = s.dbt.insert name ⟨addr, t⟩ := by
  cases heffect with
  | refused hfail => exact .inl ⟨hfail, rfl⟩
  | switched _ hargs hnode => exact .inr (.inl ⟨rfl, _, _, hargs, mem_of_lookup hnode⟩)
  | opened hargs hallowed hnew _ hopen =>
    exact .inr (.inr ⟨_, _, _, _, _, _, hargs, hallowed, AList.lookup_eq_none.mp hnew, hopen, rfl, rfl⟩)
  | answered hfn => exact absurd hfn (by decide)
  | onWdb hfn => exact absurd hfn (by decide)
  | roles hfn => exact absurd hfn (by decide)

/-- An `open` that fails changes neither the table nor the working database. -/
theorem open_fails {args : List Bytes} (hwired : Wired s.ct)
    (hgood : ¬ Spoils s (.command fd ⟨str "open", args⟩))
    (hstep : s.handle (.command fd ⟨str "open", args⟩) = .ok (r, s')) (hr : ¬ r.ok) :
    s'.dbt = s.dbt ∧ s'.logins = s.logins := by
  have hmem : (str "open", .openCb) ∈ wiring := by decide
  obtain ⟨_, rfl⟩ | ⟨ch, hpasses, hfn, heffect⟩ := hwired.command_cases hmem hstep
  · exact ⟨rfl, rfl⟩
  obtain ⟨_, rfl⟩ | ⟨hok, _⟩ |
    ⟨name, rest, res, _, t, fs, hargs, hallowed, hnew, hopen, rfl, _⟩ := heffect.openCb_cases
  · exact ⟨rfl, rfl⟩
  · exact absurd hok hr
  · obtain ⟨hcall, _⟩ := Tracked.on_eq_ok hopen
    have hspoiling : Spoiling s args .openCb := by
      refine ⟨name, ?_, hallowed, hnew, ?_⟩
      · cases hargs
        rfl
      · by_contra hfails
        exact hr ((FileDB.open_ok_iff hcall).mpr hfails)
    exact absurd ⟨ch, hpasses.lookup, hpasses, hfn ▸ hspoiling⟩ hgood

/-! ### From a destroy to the next open -/

/-- The name is neither open nor on the disk. -/
structure Gone (name : Bytes) (s : FileServer σ) : Prop where
  closed : name ∉ s.dbt
  absent : ∀ path ∈ filePaths name, Paths.resolve path ∉ s.world.dir

omit [Machine] [Paths] in
theorem not_mem_iff_each {dbt : DBTable (Tracked FileDB)} {name : Bytes} :
    name ∉ dbt ↔ Each (fun other _ => other ≠ name) dbt := by
  constructor
  · rintro hname other node hnode rfl
    exact hname (mem_of_lookup hnode)
  · intro h hname
    obtain ⟨node, hnode⟩ := mem_iff_lookup.mp hname
    exact h name node hnode rfl

omit [Machine] [Paths] in
theorem shares_self [Paths] (name : Bytes) : Shares name name :=
  ⟨name ++ str ".dat", List.mem_cons_self, name ++ str ".dat", List.mem_cons_self, rfl⟩

theorem Effect.closed_stays {name : Bytes} (heffect : Effect s cmd fd fn r s') (h : name ∉ s.dbt)
    (hopen : fn = .openCb → ∀ m ∈ cmd.args.head?, ¬ Shares m name) : name ∉ s'.dbt := by
  rw [not_mem_iff_each] at h ⊢
  refine Effect.each heffect h (fun hne _ => hne) ?_ ?_ ?_
  · rintro m rest res t fs hfn hargs _ _ _ rfl
    refine hopen hfn m ?_ (shares_self m)
    rw [hargs, List.head?_cons]
    rfl
  · intro m rest node res t fs _ _ _ hnode _
    exact h m node hnode
  · intro res dbt fs _ hdestroy _
    exact destroyEach_each hdestroy h fun e he _ _ _ _ _ => h.entry he

theorem Effect.absent_stays {place : Bytes} (heffect : Effect s cmd fd fn r s')
    (h : place ∉ s.world.dir)
    (hopen : fn = .openCb → ∀ m ∈ cmd.args.head?, ∀ p ∈ filePaths m, Paths.resolve p ≠ place) :
    place ∉ s'.world.dir := by
  cases heffect with
  | refused | answered | switched | roles | createdFirst | createdUser | addedRoles
  | removedRoles | deletedUser | loggedIn | loggedOut => exact h
  | onWdb _ _ hcall =>
    obtain ⟨hcall, _⟩ := Tracked.touched hcall
    rw [(touched_keeps hcall).2]
    exact h
  | @opened m rest _ _ t fs _ hargs _ _ _ hcall =>
    obtain ⟨hcall, _⟩ := Tracked.on_eq_ok hcall
    have hdir : fs.dir.lookup place = s.world.dir.lookup place := by
      refine FileDB.open_dir hcall (hopen rfl m ?_)
      rw [hargs, List.head?_cons]
      rfl
    rw [← AList.lookup_eq_none] at h ⊢
    rw [hdir, h]
  | closed _ _ hcall =>
    obtain ⟨hcall, _⟩ := Tracked.on_eq_ok hcall
    rw [(FileDB.close_eq_ok hcall).2]
    exact h
  | closedAll hcall =>
    rw [closeEach_dir hcall]
    exact h
  | unlinked _ _ _ hcall =>
    rw [(FileDB.destroyFiles_eq_ok hcall).2]
    exact FileSystem.unlinkEach_absent h
  | destroyed _ _ _ hcall =>
    obtain ⟨hcall, _⟩ := Tracked.on_eq_ok hcall
    rw [(FileDB.destroy_eq_ok hcall).2.2]
    exact FileSystem.unlinkEach_absent h
  | destroyedAll hcall => exact destroyEach_absent hcall h
  | destroyedSome hcall => exact destroyEach_absent hcall h

theorem Gone.handle {name : Bytes} (h : Gone name s) (hwired : Wired s.ct) {e : Event}
    (hstep : s.handle e = .ok (r, s')) (hopen : ¬ Reopens name e) : Gone name s' := by
  obtain ⟨fd, cmd, rfl, ⟨_, rfl⟩ | ⟨ch, hpasses, heffect⟩⟩ | ⟨fd, rfl, rfl⟩ := handle_cases hstep
  · exact h
  · have hapart : ch.fn = .openCb → ∀ m ∈ cmd.args.head?, ¬ Shares m name := by
      intro hfn m hm hshares
      have hcmd := (hwired.name_iff hpasses.lookup
        (by decide : (str "open", .openCb) ∈ wiring)).mpr hfn
      exact hopen ⟨hcmd, m, hm, hshares⟩
    constructor
    · exact heffect.closed_stays h.closed hapart
    · intro path hpath
      apply heffect.absent_stays (h.absent path hpath)
      intro hfn m hm p hp heq
      exact hapart hfn m hm ⟨p, hp, path, hpath, heq⟩
  · exact ⟨h.closed, h.absent⟩

theorem gone_of_destroy {name : Bytes} (hwired : Wired s.ct)
    (hgood : ¬ Spoils s (.command fd cmd)) (hcmd : cmd.cmd = str "destroy")
    (hhead : cmd.args.head? = some name) (hstep : s.handle (.command fd cmd) = .ok (r, s'))
    (hr : r.ok) : Gone name s' := by
  have hmem : (cmd.cmd, .destroyCb) ∈ wiring := hcmd ▸ by decide
  obtain ⟨hfail, _⟩ | ⟨ch, hpasses, hfn, heffect⟩ := hwired.command_cases hmem hstep
  · exact absurd hr hfail
  have hgood' : ¬ Spoiling s cmd.args .destroyCb :=
    fun hbad => hgood ⟨ch, hpasses.lookup, hpasses, hfn ▸ hbad⟩
  cases heffect with
  | unlinked hargs hallowed hnew hcall =>
    obtain ⟨rfl, hworld⟩ := FileDB.destroyFiles_eq_ok hcall
    rw [hargs, List.head?_cons] at hhead
    cases hhead
    refine ⟨AList.lookup_eq_none.mp hnew, fun path hpath => ?_⟩
    rw [hworld]
    apply FileSystem.unlinkEach_removed hr
    simp only [filePaths, fileExt, List.map_cons, List.map_nil, List.mem_cons] at hpath ⊢
    tauto
  | destroyed hargs hallowed hnode =>
    refine absurd ⟨_, ?_, hallowed, mem_of_lookup hnode⟩ hgood'
    rw [hargs, List.head?_cons]
    rfl
  | refused hfail => exact absurd hr hfail
  | answered hfn => exact absurd hfn (by decide)
  | onWdb hfn => exact absurd hfn (by decide)
  | switched hfn => exact absurd hfn (by decide)
  | roles hfn => exact absurd hfn (by decide)

theorem gone_of_destroyAll {name : Bytes} (hwired : Wired s.ct) (hnamed : Named s.dbt)
    (hcmd : cmd.cmd = str "destroy_all") (hmem : name ∈ s.dbt)
    (hstep : s.handle (.command fd cmd) = .ok (r, s')) (hr : r.ok) : Gone name s' := by
  have hwiring : (cmd.cmd, .destroyAllCb) ∈ wiring := hcmd ▸ by decide
  obtain ⟨hfail, _⟩ | ⟨ch, _, _, heffect⟩ := hwired.command_cases hwiring hstep
  · exact absurd hr hfail
  obtain ⟨node, hnode⟩ := mem_iff_lookup.mp hmem
  cases heffect with
  | destroyedAll hcall hok =>
    refine ⟨AList.notMem_empty name, fun path hpath => ?_⟩
    apply destroyEach_removed hcall hok (AList.mem_lookup_iff.mp hnode)
    rw [entryPaths, hnamed name node hnode]
    exact hpath
  | destroyedSome _ hfail => exact absurd hr hfail
  | refused hfail => exact absurd hr hfail
  | answered hfn => exact absurd hfn (by decide)
  | onWdb hfn => exact absurd hfn (by decide)
  | switched hfn => exact absurd hfn (by decide)
  | roles hfn => exact absurd hfn (by decide)

theorem gone_of_destroys {name : Bytes} {e : Event} (hwired : Wired s.ct) (hnamed : Named s.dbt)
    (hgood : ¬ Spoils s e) (hname : Destroys s name e) (hstep : s.handle e = .ok (r, s'))
    (hr : r.ok) : Gone name s' := by
  cases e with
  | command fd cmd =>
    obtain ⟨hcmd, hhead⟩ | ⟨hcmd, hmem⟩ := hname
    · exact gone_of_destroy hwired hgood hcmd hhead hstep hr
    · exact gone_of_destroyAll hwired hnamed hcmd hmem hstep hr
  | hangup fd => exact absurd hname id

theorem open_of_gone {name : Bytes} {args : List Bytes} (hwired : Wired s.ct) (h : Gone name s)
    (hstep : s.handle (.command fd ⟨str "open", name :: args⟩) = .ok (r, s')) (hr : r.ok) :
    ∃ node, s'.dbt.lookup name = some node ∧ node.db.db.db.size = 0 := by
  have hmem : (str "open", .openCb) ∈ wiring := by decide
  obtain ⟨hfail, _⟩ | ⟨ch, _, _, heffect⟩ := hwired.command_cases hmem hstep
  · exact absurd hr hfail
  obtain ⟨hfail, _⟩ | ⟨_, m, rest, hargs, hopen⟩ |
    ⟨m, rest, res, addr, t, fs, hargs, _, _, hopen, rfl, hdbt⟩ := heffect.openCb_cases
  · exact absurd hr hfail
  · cases hargs
    exact absurd hopen h.closed
  · cases hargs
    obtain ⟨hcall, _⟩ := Tracked.on_eq_ok hopen
    rw [hdbt]
    exact ⟨_, AList.lookup_insert _, FileDB.open_new hcall hr h.absent⟩

/-! ### Runs -/

/-- Whatever the files do, in a run without the three commands every entry of the table is usable;
an `open` that fails changes nothing, and a name that was destroyed is opened empty, unless a
database that shares files with it was opened in between. The three commands are the only ones that
break this. This takes the `cleanup` of a destructor to close nothing: it runs for an object that was
never opened, and again after `close` and `destroy`. -/
theorem open_table {users roles : σ} {fs : FileSystem} {start : FileServer σ}
    {trace : List (Event × Result)} (hstart : Interpreter.new ∅ users roles fs = .ok start)
    (hrun : Run (Steps next fun s e => ¬ Spoils s e) start.initCommands trace s) :
    AllUsable s.dbt ∧
    (∀ e r s', s.handle e = .ok (r, s') → (AllUsable s'.dbt ↔ ¬ Spoils s e)) ∧
    (∀ fd args r s', s.handle (.command fd ⟨str "open", args⟩) = .ok (r, s') → ¬ r.ok →
      (s'.dbt = s.dbt ∧ s'.logins = s.logins ↔ ¬ Spoils s (.command fd ⟨str "open", args⟩))) ∧
    ∀ name e r s₁ trace' s₂ fd args r' s₃, Destroys s name e → ¬ Spoils s e →
      s.handle e = .ok (r, s₁) → r.ok →
      Run (Steps next fun s e => ¬ Spoils s e ∧ ¬ Reopens name e) s₁ trace' s₂ →
      s₂.handle (.command fd ⟨str "open", name :: args⟩) = .ok (r', s₃) → r'.ok →
      ∃ node, s₃.dbt.lookup name = some node ∧ Database.size node.db = 0 := by
  have hinv : Wired s.ct ∧ AllUsable s.dbt ∧ Named s.dbt := by
    refine hrun.invariant (I := fun s => Wired s.ct ∧ AllUsable s.dbt ∧ Named s.dbt) ?_ ?_
    · have hwired := wired_start hstart
      obtain ⟨⟨res, roles'⟩, _, hstart⟩ := bind_eq_ok hstart
      cases hstart
      exact ⟨hwired, .empty, .empty⟩
    · rintro s e s' ⟨hwired, husable, hnamed⟩ ⟨hgood, hnext⟩
      have hstep := toOption_eq_some.mp hnext
      exact ⟨wired_handle hwired hstep, (handle_usable_iff husable hnamed hstep).mpr hgood,
        handle_named hnamed hstep⟩
  obtain ⟨hwired, husable, hnamed⟩ := hinv
  refine ⟨husable, fun e r s' hstep => handle_usable_iff husable hnamed hstep, ?_, ?_⟩
  · intro fd args r s' hstep hr
    constructor
    · rintro ⟨hdbt, _⟩
      rw [← handle_usable_iff husable hnamed hstep, hdbt]
      exact husable
    · exact fun hgood => open_fails hwired hgood hstep hr
  · intro name e r s₁ trace' s₂ fd args r' s₃ hname hgood hstep hr hrun' hopen hr'
    have hstart' : Wired s₁.ct ∧ Gone name s₁ :=
      ⟨wired_handle hwired hstep, gone_of_destroys hwired hnamed hgood hname hstep hr⟩
    have hgone : Wired s₂.ct ∧ Gone name s₂ := by
      refine hrun'.invariant (I := fun s => Wired s.ct ∧ Gone name s) hstart' ?_
      rintro s e s' ⟨hwired, hgone⟩ ⟨⟨_, hopen⟩, hnext⟩
      have hstep := toOption_eq_some.mp hnext
      exact ⟨wired_handle hwired hstep, hgone.handle hwired hstep hopen⟩
    exact open_of_gone hgone.1 hgone.2 hopen hr'

end

section
attribute [local instance] littleEndian

abbrev noLinks : Paths := ⟨id⟩

attribute [local instance] noLinks

/-- An empty directory in which every call succeeds. -/
def emptyDir : FileSystem where
  dir := ∅
  content _ := .empty
  count := 0
  locked := ∅
  refused _ := none
  indet := 0

def fileServer : FileServer Table where
  ct := ∅
  dbt := ∅
  users := ∅
  roles := (∅ : Table).insert (str "admin") (flagWord ADMIN)
  restrictedDbs := [str "__ACI_USERS__", str "__ACI_ROLES__"]
  logins := ∅
  world := emptyDir

theorem new_fileServer : Interpreter.new ∅ (∅ : Table) ∅ emptyDir = .ok fileServer := rfl

theorem open_table_again : ∃ trace s s₁ s₃ r r' node,
    Run (Steps next fun s e => ¬ Spoils s e) fileServer.initCommands trace s ∧ AllUsable s.dbt ∧
      s.handle (line 1 "destroy" ["a"]) = .ok (r, s₁) ∧ r.ok ∧
      s₁.handle (line 1 "open" ["a"]) = .ok (r', s₃) ∧ r'.ok ∧
      s₃.dbt.lookup (str "a") = some node ∧ Database.size node.db = 0 := by
  have hrun : ∃ trace s, Run (Steps next fun s e => ¬ Spoils s e) fileServer.initCommands trace s ∧
      (¬ Spoils s (line 1 "destroy" ["a"]) ∧
        ∃ d ∈ (s.handle (line 1 "destroy" ["a"])).toOption, d.1.ok ∧
        ∃ o ∈ (d.2.handle (line 1 "open" ["a"])).toOption, o.1.ok) :=
    exists_run
      [line 1 "create_user" ["root", "pw"], line 1 "login" ["root", "pw"], line 1 "open" ["a"],
        line 1 "set" ["k", "v"], line 1 "close" ["a"]]
      (by decide +kernel) (by decide +kernel)
  obtain ⟨trace, s, hrun, hgood, ⟨r, s₁⟩, hdestroy, hr, ⟨r', s₃⟩, hopen, hr'⟩ := hrun
  have hdestroy := toOption_eq_some.mp hdestroy
  have hopen := toOption_eq_some.mp hopen
  obtain ⟨husable, _, _, hempty⟩ := open_table new_fileServer hrun
  obtain ⟨node, hnode, hsize⟩ := hempty (str "a") (line 1 "destroy" ["a"]) r s₁ [] s₁ 1 [] r' s₃
    (.inl ⟨rfl, rfl⟩) hgood hdestroy hr .nil hopen hr'
  exact ⟨trace, s, s₁, s₃, r, r', node, hrun, husable, hdestroy, hr, hopen, hr', hnode, hsize⟩

/-- A database is destroyed while it is open: its entry stays. -/
theorem open_table_destroyed : ¬ ∀ trace s,
    Run (Steps next fun _ _ => True) fileServer.initCommands trace s → AllUsable s.dbt := by
  have hrun : ∃ trace s, Run (Steps next fun _ _ => True) fileServer.initCommands trace s ∧
      ∃ node ∈ s.dbt.lookup (str "a"), node.db.life = some (.destroyed .success) :=
    exists_run
      [line 1 "create_user" ["root", "pw"], line 1 "login" ["root", "pw"], line 1 "open" ["a"],
        line 1 "destroy" ["a"]]
      (by decide +kernel) (by decide +kernel)
  intro hall
  obtain ⟨trace, s, hrun, node, hnode, hlife⟩ := hrun
  obtain ⟨res, hopened, _⟩ := hall trace s hrun (str "a") node hnode
  rw [hlife] at hopened
  cases hopened

end

end Ambry.Aci
