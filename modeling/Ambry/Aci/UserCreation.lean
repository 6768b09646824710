import Ambry.Aci.Stores
import Ambry.Aci.Wiring
import Ambry.Foundation.Run
import Ambry.Lib.Opening
import Ambry.Lib.Outcome

/-!
# User creation

As long as there is no user, anyone may create one. The handler asks for more
flags from then on, before it writes the record, and nothing takes them back: a
server whose users were all deleted does not open up again.
-/

namespace Ambry.Aci

open Foundation Interpreter

/-! ### The number of users -/

section
variable [Machine] {db db' : DB} {key value : Bytes} {res : Ambry.Result}

omit [Machine] in
theorem size_eq_zero : db.size = 0 ↔ ∀ key, db.ctx.index.lookup key = none := by
  constructor
  · intro h key
    rw [AList.lookup_eq_none, AList.mem_keys, AList.keys, List.length_eq_zero_iff.mp h]
    exact List.not_mem_nil
  · intro h
    rw [DB.size, List.length_eq_zero_iff, List.eq_nil_iff_forall_not_mem]
    intro e he
    have hlookup : db.ctx.index.lookup e.1 = some e.2 := AList.mem_lookup_iff.mpr he
    rw [h e.1] at hlookup
    cases hlookup

theorem size_of_get (h : Store.get db key = some value) : Store.size db ≠ 0 := by
  intro hsize
  obtain ⟨data, hdata, _⟩ := Option.map_eq_some_iff.mp h
  rw [size_eq_zero.mp hsize key] at hdata
  cases hdata

theorem size_erase (h : Store.erase db key = .ok (res, db')) (hsize : Store.size db = 0) :
    Store.size db' = 0 := by
  cases hcall : db.erase key with
  | none =>
    have herase : Store.erase db key = ofOption (db.erase key) := rfl
    rw [herase, hcall] at h
    cases h
  | some out =>
    have herase : Store.erase db key = ofOption (db.erase key) := rfl
    rw [herase, hcall] at h
    cases h
    obtain ⟨_, _, rfl⟩ | ⟨old, hold, _⟩ := DB.erase_cases hcall
    · exact hsize
    · rw [size_eq_zero.mp hsize key] at hold
      cases hold

end

/-! ### The flags of `create_user` -/

section
variable {σ δ ω : Type}

/-- The flags that `create_user` asks for include `CREATE_USER`. -/
def CreationGuarded (s : Interpreter σ δ ω) : Prop :=
  ∃ ch ∈ s.ct.lookup (str "create_user"), ch.perms.test .CREATE_USER

theorem admin_createUser : ADMIN.test .CREATE_USER := by decide

theorem lookup_foldl_insert {table : List (Bytes × CmdHandle)} {ct : CmdTable} {name : Bytes}
    (h : name ∉ table.map Prod.fst) :
    (table.foldl (fun ct e => ct.insert e.1 e.2) ct).lookup name = ct.lookup name := by
  induction table generalizing ct with
  | nil => rfl
  | cons e table ih =>
    rw [List.map_cons, List.mem_cons, not_or] at h
    rw [List.foldl_cons, ih h.2, AList.lookup_insert_ne h.1]

theorem lookup_createUser (perms : FlagT) (ct : CmdTable) :
    ∃ ch, ((commandTable perms).foldl (fun ct e => ct.insert e.1 e.2) ct).lookup
      (str "create_user") = some ch ∧ ch.perms = perms := by
  obtain ⟨ch, rest, htable, hperms⟩ : ∃ ch rest,
      commandTable perms = (str "create_user", ch) :: rest ∧ ch.perms = perms := ⟨_, _, rfl, rfl⟩
  have hothers : str "create_user" ∉ rest.map Prod.fst := by
    have hnames : rest.map Prod.fst = (commandTable 0).tail.map Prod.fst := by
      have htail : rest = (commandTable perms).tail := by rw [htable, List.tail_cons]
      rw [htail]
      rfl
    rw [hnames]
    decide +kernel
  refine ⟨ch, ?_, hperms⟩
  rw [htable, List.foldl_cons, lookup_foldl_insert hothers, AList.lookup_insert]

variable [Store σ] [Database δ ω] {s s' : Interpreter σ δ ω} {cmd : Cmd} {fd : Int} {fn : CmdFN}
  {r : Result}

/-- No command takes the flag away. -/
theorem Effect.guarded_stays (heffect : Effect s cmd fd fn r s') (h : CreationGuarded s) :
    CreationGuarded s' := by
  cases heffect with
  | createdFirst => exact ⟨_, AList.lookup_insert _, admin_createUser⟩
  | _ => exact h

/-- A user appears only where the flag is, or is put there. -/
theorem Effect.guarded_users (heffect : Effect s cmd fd fn r s')
    (hget : ∀ {name data}, Store.get s.users name = some data → Store.size s.users ≠ 0)
    (herase : ∀ {name res users}, Store.erase s.users name = .ok (res, users) →
      Store.size s.users = 0 → Store.size users = 0)
    (h : Store.size s.users ≠ 0 → CreationGuarded s) (hsize : Store.size s'.users ≠ 0) :
    CreationGuarded s' := by
  cases heffect with
  | createdFirst => exact ⟨_, AList.lookup_insert _, admin_createUser⟩
  | createdUser _ _ husers => exact h husers
  | addedRoles _ hold => exact h (hget hold)
  | removedRoles _ hold => exact h (hget hold)
  | deletedUser _ hcall => exact h fun hempty => hsize (herase hcall hempty)
  | refused | answered | onWdb | opened | switched | closed | closedAll | unlinked | destroyed
  | destroyedAll | destroyedSome | roles | loggedIn | loggedOut => exact h hsize

section
variable [Machine]

/-- Whatever the function pointers mean, the command calls this one. -/
def Executes (s : Interpreter σ δ ω) (cmd : Cmd) (fd : Int) (fn : CmdFN) : Prop :=
  ∀ call : CmdFN → Handler σ δ ω, s.interpret call cmd fd = call fn cmd fd s

omit [Database δ ω] in
theorem executes_passes (h : Executes s cmd fd fn) : ∃ ch, s.Passes cmd fd ch ∧ ch.fn = fn := by
  -- a meaning that only `fn` survives
  let call : CmdFN → Handler σ δ ω := fun fn' _ _ s =>
    if fn' = fn then .ok (output [], s) else .error .undefined
  have hcall : s.interpret call cmd fd = .ok (output [], s) := (h call).trans (if_pos rfl)
  obtain ⟨hfail, _⟩ | ⟨ch, hpasses, hch⟩ := interpret_cases hcall
  · exact absurd rfl hfail
  · refine ⟨ch, hpasses, ?_⟩
    by_contra hne
    cases (if_neg hne).symm.trans hch

/-- The session is logged in under the name of a user there is. -/
def LoggedIn (s : Interpreter σ δ ω) (fd : Int) : Prop :=
  ∃ login ∈ s.logins.lookup fd, ∃ data, Store.get s.users login.name = some data

omit [Database δ ω] in
theorem loggedIn_of_perms {needed : FlagT} (h : s.calculatePerms fd needed = .ok true)
    (hneeded : needed ≠ 0) : LoggedIn s fd := by
  rw [calculatePerms, if_neg hneeded] at h
  split at h
  · cases h
  case h_2 login hlogin =>
    split at h
    · cases h
    case h_2 data hdata => exact ⟨login, hlogin, data, hdata⟩

omit [Database δ ω] in
theorem loggedIn_of_executes (hwired : Wired s.ct) (hguarded : CreationGuarded s)
    (h : Executes s cmd fd .createUserCb) : LoggedIn s fd := by
  obtain ⟨ch, hpasses, hfn⟩ := executes_passes h
  have hcmd : cmd.cmd = str "create_user" := (hwired.name_iff hpasses.lookup (by decide)).mpr hfn
  obtain ⟨ch', hlookup, hflag⟩ := hguarded
  have hlookup' := hpasses.lookup
  rw [hcmd] at hlookup'
  cases hlookup.symm.trans hlookup'
  apply loggedIn_of_perms hpasses.perms
  intro hzero
  rw [hzero] at hflag
  exact absurd hflag (by decide)

theorem handle_guarded {e : Event} (hstep : s.handle e = .ok (r, s'))
    (h : CreationGuarded s) : CreationGuarded s' := by
  obtain ⟨fd, cmd, rfl, ⟨_, rfl⟩ | ⟨ch, _, heffect⟩⟩ | ⟨fd, rfl, rfl⟩ := handle_cases hstep
  · exact h
  · exact heffect.guarded_stays h
  · exact h

theorem run_guarded {trace : List (Event × Result)} (h : CreationGuarded s)
    (hrun : Run (Steps next fun _ _ => True) s trace s') : CreationGuarded s' := by
  apply hrun.invariant (I := CreationGuarded) h
  rintro s e s' h ⟨_, hnext⟩
  exact handle_guarded (toOption_eq_some.mp hnext) h

end

end

/-! ### Runs -/

section
variable {δ ω : Type} [Database δ ω] [Machine] {s s' : Interpreter DB δ ω} {e : Event} {r : Result}

theorem handle_guarded_users (hstep : s.handle e = .ok (r, s'))
    (h : Store.size s.users ≠ 0 → CreationGuarded s) :
    Store.size s'.users ≠ 0 → CreationGuarded s' := by
  obtain ⟨fd, cmd, rfl, ⟨_, rfl⟩ | ⟨ch, _, heffect⟩⟩ | ⟨fd, rfl, rfl⟩ := handle_cases hstep
  · exact h
  · exact heffect.guarded_users size_of_get size_erase h
  · exact h

omit [Database δ ω] in
theorem guarded_start {dbt : DBTable δ} {users roles : DB} {world : ω} {start : Interpreter DB δ ω}
    (hstart : Interpreter.new dbt users roles world = .ok start)
    (hsize : Store.size start.initCommands.users ≠ 0) : CreationGuarded start.initCommands := by
  obtain ⟨⟨res, roles'⟩, _, hstart⟩ := bind_eq_ok hstart
  cases hstart
  have husers : Store.size users ≠ 0 := hsize
  obtain ⟨ch, hlookup, hperms⟩ :=
    lookup_createUser (if Store.size users = 0 then 0 else setPerms [.CREATE_USER]) ∅
  refine ⟨ch, hlookup, ?_⟩
  rw [hperms, if_neg husers]
  decide

/-- In every state with a user `create_user` asks for its flag; it never stops asking for it; and
from the first user on it is executed for sessions of users only. -/
theorem creation_guarded {dbt : DBTable δ} {users roles : DB} {world : ω}
    {start : Interpreter DB δ ω} {trace : List (Event × Result)}
    (hstart : Interpreter.new dbt users roles world = .ok start)
    (hrun : Run (Steps next fun _ _ => True) start.initCommands trace s) :
    (Store.size s.users ≠ 0 → CreationGuarded s) ∧
    ∀ trace' s', Run (Steps next fun _ _ => True) s trace' s' →
      (CreationGuarded s → CreationGuarded s') ∧
      (Store.size s.users ≠ 0 → ∀ cmd fd, Executes s' cmd fd .createUserCb → LoggedIn s' fd) := by
  have hinv : Wired s.ct ∧ (Store.size s.users ≠ 0 → CreationGuarded s) := by
    refine hrun.invariant (I := fun s => Wired s.ct ∧ (Store.size s.users ≠ 0 → CreationGuarded s))
      ⟨wired_start hstart, guarded_start hstart⟩ ?_
    rintro s e s' ⟨hwired, hguarded⟩ ⟨_, hnext⟩
    have hstep := toOption_eq_some.mp hnext
    exact ⟨wired_handle hwired hstep, handle_guarded_users hstep hguarded⟩
  refine ⟨hinv.2, fun trace' s' hrun' => ⟨fun h => run_guarded h hrun', ?_⟩⟩
  intro husers cmd fd hexecutes
  have hwired : Wired s'.ct := by
    refine hrun'.invariant (I := fun s => Wired s.ct) hinv.1 ?_
    rintro s e s' hwired ⟨_, hnext⟩
    exact wired_handle hwired (toOption_eq_some.mp hnext)
  exact loggedIn_of_executes hwired (run_guarded (hinv.2 husers) hrun') hexecutes

end

section
attribute [local instance] littleEndian

/-- A server that finds no files. -/
def newServer : Outcome (Interpreter DB Volume Disk) :=
  Interpreter.new ∅ (DB.opened (str "__ACI_USERS__") {}) (DB.opened (str "__ACI_ROLES__") {}) ∅

/-- The only user is created and deleted again. -/
theorem creation_guarded_deleted : ∃ start trace, ∃ s s' : Interpreter DB Volume Disk,
    newServer = .ok start ∧ Run (Steps next fun _ _ => True) start.initCommands trace s ∧
      (Store.size s.users ≠ 0 ∧ CreationGuarded s) ∧ Store.size s'.users = 0 ∧ CreationGuarded s' ∧
      ∀ cmd fd, Executes s' cmd fd .createUserCb → LoggedIn s' fd := by
  have hrun : ∃ start ∈ newServer.toOption,
      Guarded next (fun _ _ => True) start.initCommands
          [line 1 "create_user" ["root", "pw"], line 1 "login" ["root", "pw"]] ∧
      ∃ out ∈ runAll next start.initCommands
          [line 1 "create_user" ["root", "pw"], line 1 "login" ["root", "pw"]],
        Store.size out.2.users ≠ 0 ∧
          ∃ after ∈ next out.2 (line 1 "delete_user" ["root"]), Store.size after.2.users = 0 := by
    decide +kernel
  obtain ⟨start, hstart, hguard, ⟨trace, s⟩, hout, husers, ⟨r, s'⟩, hnext, hnone⟩ := hrun
  have hstart := toOption_eq_some.mp hstart
  have hrun := run_of_runAll hguard hout
  have hrun' : Run (Steps next fun _ _ => True) s [(line 1 "delete_user" ["root"], r)] s' :=
    .snoc .nil ⟨trivial, hnext⟩
  obtain ⟨hguarded, hlater⟩ := creation_guarded hstart hrun
  obtain ⟨hstays, hexecutes⟩ := hlater _ s' hrun'
  exact ⟨start, trace, s, s', hstart, hrun, ⟨husers, hguarded husers⟩, hnone,
    hstays (hguarded husers), hexecutes husers⟩

end

end Ambry.Aci
