import Ambry.Aci.Permissions
import Ambry.Aci.UserCreation
import Ambry.Lib.CacheMirror
import Ambry.Lib.Refinement

/-!
# What nobody may do

The loop of the permission check goes through the table of the flag names, and
one flag is missing there. A command that needs this flag is never executed,
whatever the users and the roles hold: no role is ever deleted, and the first
user of a server is its last.
-/

namespace Ambry.Aci

open Foundation Interpreter

section
variable {σ δ ω : Type} [Store σ] [Machine]

theorem permsBody_cleared {roles : σ} {state state' : FlagT × Nat} {role : Bytes}
    (h : permsBody roles state role = .ok state') :
    ∃ granted : FLAG → Prop, ¬ granted .DELETE_ROLE ∧ Cleared granted state state' := by
  rw [permsBody] at h
  split at h
  · cases h
    exact ⟨_, not_false, .none⟩
  case h_2 value _ =>
    obtain ⟨flag, _, h⟩ := bind_eq_ok h
    cases h
    refine ⟨_, ?_, cleared_table flag permTable state⟩
    rintro ⟨hlisted, _⟩
    exact listed_iff.mp hlisted rfl

/-- Nothing needs to be known of the records: the flag is never cleared, so the count falls
short. -/
theorem deleteRole_never_granted {s : Interpreter σ δ ω} {fd : Int} {needed : FlagT}
    (h : s.calculatePerms fd needed = .ok true) : ¬ needed.test .DELETE_ROLE := by
  rw [calculatePerms] at h
  split at h
  case isTrue hzero =>
    rw [hzero]
    exact test_deleteRole_zero
  case isFalse =>
  split at h
  · cases h
  split at h
  · cases h
  obtain ⟨state, hwalk, h⟩ := bind_eq_ok h
  have hcount : needed.count ≤ state.2 := of_decide_eq_true (Except.ok.inj h)
  have hstep : ∀ state role state', (∃ granted : FLAG → Prop, ¬ granted .DELETE_ROLE ∧
      Cleared granted (needed, 0) state) → permsBody s.roles state role = .ok state' →
      ∃ granted : FLAG → Prop, ¬ granted .DELETE_ROLE ∧ Cleared granted (needed, 0) state' := by
    rintro state role state' ⟨granted, hgranted, hcleared⟩ hbody
    obtain ⟨granted', hgranted', hcleared'⟩ := permsBody_cleared hbody
    exact ⟨_, not_or.mpr ⟨hgranted, hgranted'⟩, hcleared.trans hcleared'⟩
  obtain ⟨granted, hgranted, hcleared⟩ := walk_invariant hstep hwalk ⟨_, not_false, .none⟩
  exact fun htest => hgranted (hcleared.count_le_iff.mp hcount _ htest)

end

/-! ### The names in a store -/

section
variable [Machine] {db db' : DB} {name key value : Bytes} {res : Ambry.Result}

/-- No other name than this one has a record. -/
def Only (name : Bytes) (db : DB) : Prop := ∀ key ∈ db.ctx.index, key = name

omit [Machine] in
theorem Only.size_le (h : Only name db) : db.size ≤ 1 := by
  have hkeys : ∀ key ∈ db.ctx.index.keys, key = name := h
  have hnodup := db.ctx.index.keys_nodup
  rw [List.eq_replicate_length.mpr hkeys, List.nodup_replicate] at hnodup
  rwa [AList.keys, List.keys, List.length_map] at hnodup

theorem mem_update (h : Store.update db key value = .ok (res, db')) {k : Bytes}
    (hk : k ∈ db'.ctx.index) : k ∈ db.ctx.index := by
  obtain ⟨_, _, rfl⟩ | ⟨old, hold, _, _, hout⟩ := DB.update_cases (ofOption_eq_ok h)
  · exact hk
  · rw [hout.index] at hk
    obtain rfl | hk := (AList.mem_insert _).mp hk
    · exact mem_of_lookup hold
    · exact hk

theorem mem_erase (h : Store.erase db key = .ok (res, db')) {k : Bytes}
    (hk : k ∈ db'.ctx.index) : k ∈ db.ctx.index := by
  obtain ⟨_, _, rfl⟩ | ⟨_, _, _, hout⟩ := DB.erase_cases (ofOption_eq_ok h)
  · exact hk
  · rw [hout.index] at hk
    exact (AList.mem_erase.mp hk).2

/-- Into a store without records a record is always set. -/
theorem set_of_size (hsize : Store.size db = 0) (h : Store.set db key value = .ok (res, db')) :
    res.ok ∧ Only key db' := by
  obtain ⟨⟨data, hdata⟩, _⟩ | ⟨_, rfl, _, hout⟩ := DB.set_cases (ofOption_eq_ok h)
  · rw [size_eq_zero.mp hsize key] at hdata
    cases hdata
  · refine ⟨rfl, fun k hk => ?_⟩
    rw [hout.index] at hk
    obtain hk | hk := (AList.mem_insert _).mp hk
    · exact hk
    · obtain ⟨data, hdata⟩ := mem_iff_lookup.mp hk
      rw [size_eq_zero.mp hsize k] at hdata
      cases hdata

end

/-! ### The first user is the last -/

/-- A user was created. -/
def Creates : Event × Result → Bool
  | (.command _ cmd, r) => cmd.cmd = str "create_user" && r.ok
  | (.hangup _, _) => false

/-- The event asked for a user of this name. -/
def Founds (name : Bytes) (e : Event) : Prop :=
  ∃ fd password rest, e = .command fd ⟨str "create_user", name :: password :: rest⟩

section
variable {trace : List (Event × Result)} {r : Result}

theorem toRes_ok (res : Ambry.Result) : (toRes res).ok = res.ok := rfl

theorem filter_concat_of_not {e : Event × Result} (h : ¬ Creates e) :
    (trace ++ [e]).filter Creates = trace.filter Creates := by
  rw [List.filter_append, List.filter_cons_of_neg h, List.filter_nil, List.append_nil]

theorem not_creates_of_name {fd : Int} {cmd : Cmd} (h : cmd.cmd ≠ str "create_user") :
    ¬ Creates (.command fd cmd, r) := by
  simp [Creates, h]

end

section
variable {δ ω : Type} [Database δ ω] [Machine] {s s' : Interpreter DB δ ω}
  {trace : List (Event × Result)} {e : Event} {r : Result}

/-- `create_user` asks for every flag. -/
def Sealed (ct : CmdTable) : Prop := ∃ ch ∈ ct.lookup (str "create_user"), ch.perms = ADMIN

/-- No user was ever created, or one, and nobody else can be. -/
def Founded (trace : List (Event × Result)) (s : Interpreter DB δ ω) : Prop :=
  (Store.size s.users = 0 ∧ trace.filter Creates = []) ∨
  (Sealed s.ct ∧ ∃ name e r, Only name s.users ∧ trace.filter Creates = [(e, r)] ∧ Founds name e)

omit [Database δ ω] in
theorem Founded.keep (h : Founded trace s) (hct : s'.ct = s.ct) (husers : s'.users = s.users)
    (hnot : ¬ Creates (e, r)) : Founded (trace ++ [(e, r)]) s' := by
  rw [Founded, filter_concat_of_not hnot, hct, husers]
  exact h

/-- What is not `create_user` adds no name. -/
theorem Effect.other_users {cmd : Cmd} {fd : Int} {fn : CmdFN} (heffect : Effect s cmd fd fn r s')
    (hfn : fn ≠ .createUserCb) : s'.ct = s.ct ∧
      (Store.size s.users = 0 → Store.size s'.users = 0) ∧
      ∀ name, Only name s.users → Only name s'.users := by
  cases heffect with
  | createdFirst | createdUser => exact absurd rfl hfn
  | addedRoles _ hget _ hupdate =>
    exact ⟨rfl, fun h => absurd h (size_of_get hget), fun _ h k hk => h k (mem_update hupdate hk)⟩
  | removedRoles _ hget _ hupdate =>
    exact ⟨rfl, fun h => absurd h (size_of_get hget), fun _ h k hk => h k (mem_update hupdate hk)⟩
  | deletedUser _ herase =>
    exact ⟨rfl, size_erase herase, fun _ h k hk => h k (mem_erase herase hk)⟩
  | refused | answered | onWdb | opened | switched | closed | closedAll | unlinked | destroyed
  | destroyedAll | destroyedSome | roles | loggedIn | loggedOut => exact ⟨rfl, id, fun _ => id⟩

omit [Database δ ω] in
theorem Sealed.not_passes {cmd : Cmd} {fd : Int} {ch : CmdHandle} (h : Sealed s.ct)
    (hcmd : cmd.cmd = str "create_user") : ¬ s.Passes cmd fd ch := by
  obtain ⟨ch', hch', hperms⟩ := h
  intro hpasses
  have hlookup := hpasses.lookup
  rw [hcmd] at hlookup
  cases hlookup.symm.trans hch'
  have hrefused := deleteRole_never_granted hpasses.perms
  rw [hperms] at hrefused
  exact hrefused (test_admin .DELETE_ROLE)

theorem Founded.command {cmd : Cmd} {fd : Int} {ch : CmdHandle} (h : Founded trace s)
    (hwired : Wired s.ct) (hpasses : s.Passes cmd fd ch) (heffect : Effect s cmd fd ch.fn r s') :
    Founded (trace ++ [(.command fd cmd, r)]) s' := by
  have hname : cmd.cmd = str "create_user" ↔ ch.fn = .createUserCb :=
    hwired.name_iff hpasses.lookup (by decide)
  by_cases hfn : ch.fn = .createUserCb
  case neg =>
    obtain ⟨hct, hempty, honly⟩ := heffect.other_users hfn
    have hnot : ¬ Creates (.command fd cmd, r) :=
      not_creates_of_name fun heq => hfn (hname.mp heq)
    rw [Founded, filter_concat_of_not hnot, hct]
    obtain ⟨hsize, htrace⟩ | ⟨hsealed, name, e, r', hnames, hrest⟩ := h
    · exact .inl ⟨hempty hsize, htrace⟩
    · exact .inr ⟨hsealed, name, e, r', honly name hnames, hrest⟩
  case pos =>
    obtain ⟨hsize, htrace⟩ | ⟨hsealed, _⟩ := h
    case inr => exact absurd hpasses (hsealed.not_passes (hname.mpr hfn))
    rw [hfn] at heffect
    cases heffect with
    | refused hr =>
      refine .inl ⟨hsize, ?_⟩
      rw [filter_concat_of_not (by simp [Creates, hr])]
      exact htrace
    | @createdFirst _ _ _ res _ hargs _ _ hset =>
      obtain ⟨hok, honly⟩ := set_of_size hsize hset
      have hcreates : Creates (.command fd cmd, toRes res) = true := by
        simp [Creates, hname.mpr hfn, toRes_ok, hok]
      refine .inr ⟨⟨_, AList.lookup_insert _, rfl⟩, _, .command fd cmd, toRes res, honly, ?_, ?_⟩
      · rw [List.filter_append, htrace, List.filter_cons_of_pos hcreates]
        rfl
      · obtain ⟨name, args⟩ := cmd
        obtain rfl : name = str "create_user" := hname.mpr hfn
        obtain rfl := hargs
        exact ⟨fd, _, _, rfl⟩
    | createdUser _ _ husers => exact absurd hsize husers
    | answered hmem => exact absurd hmem (by decide)
    | onWdb hmem => exact absurd hmem (by decide)
    | switched hmem => exact absurd hmem (by decide)
    | roles hmem => exact absurd hmem (by decide)

theorem Founded.handle (h : Founded trace s) (hwired : Wired s.ct)
    (hstep : s.handle e = .ok (r, s')) : Founded (trace ++ [(e, r)]) s' := by
  obtain ⟨fd, cmd, rfl, ⟨hr, rfl⟩ | ⟨ch, hpasses, heffect⟩⟩ | ⟨fd, rfl, rfl⟩ := handle_cases hstep
  · exact h.keep rfl rfl (by simp [Creates, hr])
  · exact h.command hwired hpasses heffect
  · exact h.keep rfl rfl Bool.false_ne_true

/-- A server that starts without users creates one at most, and has no other one ever. -/
theorem one_user {dbt : DBTable δ} {users roles : DB} {world : ω} {start : Interpreter DB δ ω}
    (hstart : Interpreter.new dbt users roles world = .ok start) (hsize : Store.size users = 0)
    (hrun : Run (Steps next fun _ _ => True) start.initCommands trace s) :
    (trace.filter Creates).length ≤ 1 ∧ Store.size s.users ≤ 1 ∧
      ∀ name data, Store.get s.users name = some data →
        ∃ e r, trace.filter Creates = [(e, r)] ∧ Founds name e := by
  have hinv : Wired s.ct ∧ Founded trace s := by
    refine hrun.history (I := fun trace s => Wired s.ct ∧ Founded trace s)
      ⟨wired_start hstart, ?_⟩ ?_
    · obtain ⟨⟨res, roles'⟩, _, hstart⟩ := bind_eq_ok hstart
      cases hstart
      exact .inl ⟨hsize, rfl⟩
    · rintro trace s ⟨e, r⟩ s' ⟨hwired, hfounded⟩ ⟨_, hnext⟩
      have hstep := toOption_eq_some.mp hnext
      exact ⟨wired_handle hwired hstep, hfounded.handle hwired hstep⟩
  obtain ⟨hnone, htrace⟩ | ⟨_, name, e, r, honly, htrace, hfounds⟩ := hinv.2
  · refine ⟨by simp [htrace], hnone.le.trans zero_le_one, fun name data hget => ?_⟩
    exact absurd hnone (size_of_get hget)
  · refine ⟨by simp [htrace], honly.size_le, fun name' data hget => ⟨e, r, htrace, ?_⟩⟩
    obtain ⟨entry, hentry, _⟩ := Option.map_eq_some_iff.mp hget
    rw [honly name' (mem_of_lookup hentry)]
    exact hfounds

end

section
attribute [local instance] littleEndian

theorem run_runAll {s s' : Interpreter DB Volume Disk} {events : List Event}
    {trace : List (Event × Result)} (h : (trace, s') ∈ runAll next s events) :
    Run (Steps next fun _ _ => True) s trace s' :=
  run_of_runAll (.of_forall (fun _ _ => trivial) _ _) h

/-- The administrator asks for a second user, and is refused. -/
theorem one_user_refused : ∃ start trace, ∃ s : Interpreter DB Volume Disk,
    newServer = .ok start ∧ Run (Steps next fun _ _ => True) start.initCommands trace s ∧
      trace.map (fun e => e.2.ok) = [true, true, false] ∧
      (trace.filter Creates).length ≤ 1 ∧ Store.size s.users ≤ 1 := by
  have hrun : ∃ start ∈ newServer.toOption, ∃ out ∈ runAll next start.initCommands
      [line 1 "create_user" ["root", "pw"], line 1 "login" ["root", "pw"],
        line 1 "create_user" ["bob", "pw"]],
      out.1.map (fun e => e.2.ok) = [true, true, false] := by
    decide +kernel
  obtain ⟨start, hstart, ⟨trace, s⟩, hout, hanswers⟩ := hrun
  have hstart := toOption_eq_some.mp hstart
  have hone := one_user hstart (by decide) (run_runAll hout)
  exact ⟨start, trace, s, hstart, run_runAll hout, hanswers, hone.1, hone.2.1⟩

end

/-! ### No user, no command -/

section
variable {δ ω : Type} [Database δ ω] [Machine] {s s' : Interpreter DB δ ω}
  {trace : List (Event × Result)} {e : Event} {r : Result}

omit [Machine] in
/-- The functions that anyone may call. -/
theorem fn_of_perms_zero {createUser : FlagT} {e : Bytes × CmdHandle}
    (he : e ∈ commandTable createUser) (hzero : e.2.perms = 0) :
    e.1 = str "create_user" ∨ e.2.fn ∈ [.loginCb, .logoutCb, .switchCb] := by
  have htail : ∀ e ∈ (commandTable 0).tail,
      e.2.perms = 0 → e.2.fn ∈ [.loginCb, .logoutCb, .switchCb] := by decide +kernel
  obtain rfl | he := List.mem_cons.mp he
  · exact .inl rfl
  · exact .inr (htail e he hzero)

/-- Up to the logins the state stays as it is. -/
structure Frozen (s s' : Interpreter DB δ ω) (e : Event) (r : Result) : Prop where
  ct : s'.ct = s.ct
  users : s'.users = s.users
  roles : s'.roles = s.roles
  dbt : s'.dbt = s.dbt
  world : s'.world = s.world
  answered : r.ok → (∃ fd cmd, e = .command fd cmd ∧ cmd.cmd ∈ [str "logout", str "switch"]) ∨
    ∃ fd, e = .hangup fd

theorem handle_frozen (htabled : Tabled s.ct) (hguarded : CreationGuarded s)
    (hempty : Store.size s.users = 0) (hstep : s.handle e = .ok (r, s')) : Frozen s s' e r := by
  obtain ⟨fd, cmd, rfl, ⟨hr, rfl⟩ | ⟨ch, hpasses, heffect⟩⟩ | ⟨fd, rfl, rfl⟩ := handle_cases hstep
  · exact ⟨rfl, rfl, rfl, rfl, rfl, fun h => absurd h hr⟩
  · have hnone : ∀ name data, Store.get s.users name ≠ some data :=
      fun name data hget => size_of_get hget hempty
    have hzero : ch.perms = 0 := by
      by_contra hne
      obtain ⟨login, _, data, hdata⟩ := loggedIn_of_perms hpasses.perms hne
      exact hnone login.name data hdata
    obtain ⟨perms, hmem⟩ := htabled.entry _ _ hpasses.lookup
    obtain hcreate | hfn := fn_of_perms_zero hmem hzero
    · obtain ⟨ch', hlookup, hflag⟩ := hguarded
      have hsame := hpasses.lookup
      rw [show cmd.cmd = str "create_user" from hcreate] at hsame
      cases hlookup.symm.trans hsame
      rw [hzero] at hflag
      exact absurd hflag (by decide)
    · have hname : ∀ {other fn}, (other, fn) ∈ wiring → (cmd.cmd = other ↔ ch.fn = fn) :=
        fun hmem => htabled.wired.name_iff hpasses.lookup hmem
      simp only [List.mem_cons, List.not_mem_nil, or_false] at hfn
      obtain hfn | hfn | hfn := hfn <;> rw [hfn] at heffect
      · cases heffect with
        | refused hr => exact ⟨rfl, rfl, rfl, rfl, rfl, fun h => absurd h hr⟩
        | loggedIn _ _ hget => exact absurd hget (hnone _ _)
        | answered hmem | onWdb hmem | switched hmem | roles hmem => exact absurd hmem (by decide)
      · have hcmd : cmd.cmd = str "logout" := (hname (by decide)).mpr hfn
        have hallowed : cmd.cmd ∈ [str "logout", str "switch"] := by simp [hcmd]
        cases heffect with
        | refused | loggedOut => exact ⟨rfl, rfl, rfl, rfl, rfl, fun _ => .inl ⟨fd, cmd, rfl, hallowed⟩⟩
        | answered hmem | onWdb hmem | switched hmem | roles hmem => exact absurd hmem (by decide)
      · have hcmd : cmd.cmd = str "switch" := (hname (by decide)).mpr hfn
        have hallowed : cmd.cmd ∈ [str "logout", str "switch"] := by simp [hcmd]
        cases heffect with
        | refused | switched =>
          exact ⟨rfl, rfl, rfl, rfl, rfl, fun _ => .inl ⟨fd, cmd, rfl, hallowed⟩⟩
        | answered hmem | onWdb hmem | roles hmem => exact absurd hmem (by decide)
  · exact ⟨rfl, rfl, rfl, rfl, rfl, fun _ => .inr ⟨fd, rfl⟩⟩

/-- Once the last user is deleted, nothing but logins and working databases ever changes again,
and no command but `logout` and `switch` succeeds. -/
theorem locked_out {dbt : DBTable δ} {users roles : DB} {world : ω} {start : Interpreter DB δ ω}
    {before after : List (Event × Result)} {s₁ : Interpreter DB δ ω}
    (hstart : Interpreter.new dbt users roles world = .ok start)
    (hbefore : Run (Steps next fun _ _ => True) start.initCommands before s₁)
    (husers : Store.size s₁.users ≠ 0) (hrun : Run (Steps next fun _ _ => True) s₁ trace s)
    (hempty : Store.size s.users = 0) (hafter : Run (Steps next fun _ _ => True) s after s') :
    (s'.ct = s.ct ∧ s'.users = s.users ∧ s'.roles = s.roles ∧ s'.dbt = s.dbt ∧
      s'.world = s.world) ∧
    ∀ e ∈ after, e.2.ok →
      (∃ fd cmd, e.1 = .command fd cmd ∧ cmd.cmd ∈ [str "logout", str "switch"]) ∨
        ∃ fd, e.1 = .hangup fd := by
  have hinv₁ : Tabled s₁.ct ∧ (Store.size s₁.users ≠ 0 → CreationGuarded s₁) := by
    refine hbefore.invariant
      (I := fun s => Tabled s.ct ∧ (Store.size s.users ≠ 0 → CreationGuarded s))
      ⟨tabled_start hstart, guarded_start hstart⟩ ?_
    rintro s e s' ⟨htabled, hguarded⟩ ⟨_, hnext⟩
    have hstep := toOption_eq_some.mp hnext
    exact ⟨tabled_handle htabled hstep, handle_guarded_users hstep hguarded⟩
  have hinv : Tabled s.ct ∧ CreationGuarded s := by
    refine hrun.invariant (I := fun s => Tabled s.ct ∧ CreationGuarded s)
      ⟨hinv₁.1, hinv₁.2 husers⟩ ?_
    rintro s e s' ⟨htabled, hguarded⟩ ⟨_, hnext⟩
    have hstep := toOption_eq_some.mp hnext
    exact ⟨tabled_handle htabled hstep, handle_guarded hstep hguarded⟩
  obtain ⟨htabled, hguarded⟩ := hinv
  refine hafter.history (I := fun after s' =>
    (s'.ct = s.ct ∧ s'.users = s.users ∧ s'.roles = s.roles ∧ s'.dbt = s.dbt ∧
      s'.world = s.world) ∧
    ∀ e ∈ after, e.2.ok →
      (∃ fd cmd, e.1 = .command fd cmd ∧ cmd.cmd ∈ [str "logout", str "switch"]) ∨
        ∃ fd, e.1 = .hangup fd)
    ⟨⟨rfl, rfl, rfl, rfl, rfl⟩, fun e he => absurd he List.not_mem_nil⟩ ?_
  rintro after s₂ ⟨e, r⟩ s₃ ⟨⟨hct, husers, hroles, hdbt, hworld⟩, hanswered⟩ ⟨_, hnext⟩
  have hguarded₂ : CreationGuarded s₂ := by
    rw [CreationGuarded, hct]
    exact hguarded
  have hfrozen := handle_frozen (hct ▸ htabled) hguarded₂ (husers ▸ hempty)
    (toOption_eq_some.mp hnext)
  refine ⟨⟨hfrozen.ct.trans hct, hfrozen.users.trans husers, hfrozen.roles.trans hroles,
    hfrozen.dbt.trans hdbt, hfrozen.world.trans hworld⟩, ?_⟩
  intro e' he'
  obtain he' | he' := List.mem_append.mp he'
  · exact hanswered e' he'
  · rw [List.mem_singleton.mp he']
    exact hfrozen.answered

end

section
attribute [local instance] littleEndian

/-- The only user deletes the account, and asks for the roles. -/
theorem locked_out_root : ∃ start before after, ∃ s s' : Interpreter DB Volume Disk,
    newServer = .ok start ∧ Run (Steps next fun _ _ => True) start.initCommands before s ∧
      Run (Steps next fun _ _ => True) s after s' ∧ after.length = 2 ∧ Store.size s.users = 0 ∧
      s'.users = s.users ∧ s'.roles = s.roles := by
  have hrun : ∃ start ∈ newServer.toOption, ∃ out ∈ runAll next start.initCommands
      [line 1 "create_user" ["root", "pw"], line 1 "login" ["root", "pw"]],
      Store.size out.2.users ≠ 0 ∧ ∃ out' ∈ runAll next out.2 [line 1 "delete_user" ["root"]],
        Store.size out'.2.users = 0 ∧ ∃ out'' ∈ runAll next out'.2
          [line 1 "show_roles" [], line 1 "logout" []], out''.1.length = 2 := by
    decide +kernel
  obtain ⟨start, hstart, ⟨t₁, s₁⟩, h₁, husers, ⟨t₂, s₂⟩, h₂, hempty, ⟨t₃, s₃⟩, h₃, hlen⟩ := hrun
  have hstart := toOption_eq_some.mp hstart
  have hlocked := locked_out hstart (run_runAll h₁) husers (run_runAll h₂) hempty (run_runAll h₃)
  exact ⟨start, t₁ ++ t₂, t₃, s₂, s₃, hstart, (run_runAll h₁).append (run_runAll h₂), run_runAll h₃,
    hlen, hempty, hlocked.1.2.1, hlocked.1.2.2.1⟩

end

/-! ### The roles are what `create_role` made -/

section
variable {σ δ ω : Type} [Store σ] [Database δ ω] [Machine] {s s' : Interpreter σ δ ω}
  {r : Result} {cmd : Cmd} {fd : Int}

omit [Database δ ω] in
theorem createRoleCb_cases (fd : Int) (h : createRoleCb cmd fd s = .ok (r, s')) :
    (¬ r.ok ∧ s'.roles = s.roles) ∨ ∃ name flags f res, cmd.args = name :: flags ∧
      flagsNamed 0 flags = some f ∧ Store.set s.roles name (flagWord f) = .ok (res, s'.roles) ∧
      r = toRes res := by
  rw [createRoleCb] at h
  split at h
  case h_2 => cases h
  case h_1 name flags hargs =>
  split at h
  · cases h
    exact .inl ⟨interErr_not_ok _, rfl⟩
  split at h
  · cases h
    exact .inl ⟨interErr_not_ok _, rfl⟩
  case h_2 f hflags =>
    obtain ⟨⟨res, roles⟩, hset, h⟩ := bind_eq_ok h
    cases h
    exact .inr ⟨name, flags, f, res, hargs, hflags, hset, rfl⟩

omit [Database δ ω] in
theorem Interpreter.Passes.not_deleteRole {ch : CmdHandle} (hpasses : s.Passes cmd fd ch)
    (htabled : Tabled s.ct) : ch.fn ≠ .deleteRoleCb := by
  intro hfn
  obtain ⟨perms, hmem⟩ := htabled.entry _ _ hpasses.lookup
  have hcmd : cmd.cmd = str "delete_role" :=
    (htabled.wired.name_iff hpasses.lookup (by decide)).mpr hfn
  exact deleteRole_never_granted hpasses.perms ((test_deleteRole_iff hmem).mpr (.inl hcmd))

theorem callFn_roles {fn : CmdFN} (hfn : fn ≠ .deleteRoleCb)
    (h : callFn fn cmd fd s = .ok (r, s')) : s'.roles = s.roles ∨
      ∃ name flags f res, fn = .createRoleCb ∧ cmd.args = name :: flags ∧
        flagsNamed 0 flags = some f ∧ Store.set s.roles name (flagWord f) = .ok (res, s'.roles) ∧
        r = toRes res := by
  by_cases hcreate : fn = .createRoleCb
  · rw [hcreate] at h
    obtain ⟨_, hroles⟩ | ⟨name, flags, f, res, hmade⟩ := createRoleCb_cases fd h
    · exact .inl hroles
    · exact .inr ⟨name, flags, f, res, hcreate, hmade⟩
  · have heffect := callFn_effect h
    left
    cases heffect with
    | roles hmem =>
      simp only [List.mem_cons, List.not_mem_nil, or_false] at hmem
      exact (hmem.elim hcreate hfn).elim
    | _ => rfl

end

section
variable {σ δ ω : Type} [Store σ] [Database δ ω] [Machine] {s s' : Interpreter σ δ ω}
  {e : Event} {r : Result}

/-- A role of this name and value was made. -/
def MadeBy (role value : Bytes) (e : Event × Result) : Prop :=
  ∃ fd flags f, e.1 = .command fd ⟨str "create_role", role :: flags⟩ ∧ e.2.ok ∧
    flagsNamed 0 flags = some f ∧ value = flagWord f

/-- The event was an attempt to delete a role. -/
def DeletesRole (e : Event) : Prop := ∃ fd args, e = .command fd ⟨str "delete_role", args⟩

/-- What one step does to the roles. -/
theorem handle_roles (htabled : Tabled s.ct) (hstep : s.handle e = .ok (r, s')) :
    (s'.roles = s.roles ∨ ∃ name f res, Store.set s.roles name (flagWord f) = .ok (res, s'.roles) ∧
      (res.ok → MadeBy name (flagWord f) (e, r))) ∧ (DeletesRole e → ¬ r.ok) := by
  have hname : ∀ {cmd fd ch other fn}, s.Passes cmd fd ch → (other, fn) ∈ wiring →
      (cmd.cmd = other ↔ ch.fn = fn) :=
    fun hpasses hmem => htabled.wired.name_iff hpasses.lookup hmem
  cases e with
  | hangup fd =>
    cases h : s.handle (.hangup fd) with
    | error => rw [h] at hstep; cases hstep
    | ok out =>
      cases hstep
      refine ⟨.inl rfl, ?_⟩
      rintro ⟨_, _, heq⟩
      cases heq
  | command fd cmd =>
    obtain ⟨hr, rfl⟩ | ⟨ch, hpasses, hcall⟩ := interpret_cases hstep
    · exact ⟨.inl rfl, fun _ => hr⟩
    have hnever := hpasses.not_deleteRole htabled
    refine ⟨?_, ?_⟩
    · obtain hsame | ⟨name, flags, f, res, hfn, hargs, hflags, hset, rfl⟩ := callFn_roles hnever hcall
      · exact .inl hsame
      · refine .inr ⟨name, f, res, hset, fun hok => ⟨fd, flags, f, ?_, hok, hflags, rfl⟩⟩
        obtain ⟨cmd, args⟩ := cmd
        obtain rfl : cmd = str "create_role" := (hname hpasses (by decide)).mpr hfn
        obtain rfl := hargs
        rfl
    · rintro ⟨fd', args, heq⟩
      cases heq
      have hmem : (str "delete_role", .deleteRoleCb) ∈ wiring := by decide
      exact absurd ((hname hpasses hmem).mp rfl) hnever

end

section
variable {δ ω : Type} [Database δ ω] [Machine] {s s' : Interpreter DB δ ω}
  {trace : List (Event × Result)}

/-- The extents are sound, and the cache holds the data file. -/
def Intact (db : DB) : Prop := db.ledger.Sound ∧ db.Mirror

theorem Intact.set {db db' : DB} {key : Bytes} {f : FlagT} {res : Ambry.Result} (h : Intact db)
    (hset : Store.set db key (flagWord f) = .ok (res, db')) : Intact db' ∧
      (res, db'.get) = (DB.Op.set key (flagWord f)).onMap db.get := by
  have hlen : (flagWord f).length < 2 ^ 32 := by
    rw [flagWord, image_length]
    decide
  obtain ⟨hsound, hget⟩ := DB.set_refines h.1 hlen (ofOption_eq_ok hset)
  exact ⟨⟨hsound, h.2.set (ofOption_eq_ok hset)⟩, hget⟩

omit [Machine] in
/-- On the map a `set` adds, and changes nothing that is there. -/
theorem onMap_set {m m' : Bytes → Option Bytes} {key value : Bytes} {res : Ambry.Result}
    (h : (res, m') = (DB.Op.set key value).onMap m) :
    (∀ k v, m k = some v → m' k = some v) ∧
      ∀ k v, m' k = some v → m k = some v ∨ (res.ok ∧ k = key ∧ v = value) := by
  rw [DB.Op.onMap] at h
  split at h
  · cases h
    exact ⟨fun _ _ => id, fun _ _ => .inl⟩
  case h_2 hnone =>
    cases h
    constructor
    · intro k v hk
      have hne : k ≠ key := by
        rintro rfl
        rw [hnone] at hk
        cases hk
      rwa [Function.update_of_ne hne]
    · intro k v hk
      rcases eq_or_ne k key with rfl | hne
      · rw [Function.update_self] at hk
        exact .inr ⟨rfl, rfl, (Option.some.inj hk).symm⟩
      · rw [Function.update_of_ne hne] at hk
        exact .inl hk

theorem Intact.mem_entries {db : DB} (h : Intact db) (key value : Bytes) :
    (key, value) ∈ Store.entries db ↔ Store.get db key = some value := by
  have hget : Store.get db key = db.getCached key := (h.2.getCached_eq key).symm
  rw [hget]
  constructor
  · intro hmem
    obtain ⟨e, he, heq⟩ := List.mem_map.mp hmem
    obtain ⟨rfl, rfl⟩ := Prod.mk.inj heq
    have hlookup : db.ctx.index.lookup e.1 = some e.2 := AList.mem_lookup_iff.mpr he
    rw [DB.getCached, hlookup]
    rfl
  · intro hcached
    obtain ⟨data, hdata, hvalue⟩ := Option.map_eq_some_iff.mp hcached
    refine List.mem_map.mpr ⟨⟨key, data⟩, AList.mem_lookup_iff.mp hdata, ?_⟩
    rw [hcached]
    rfl

/-- The roles are kept as they were made, and every new one was made by `create_role`; what is
listed is what is looked up; and no role is deleted. -/
theorem roles_kept {name : Bytes} {im : IoManager} {indet : UInt8} {res : Ambry.Result}
    {dbt : DBTable δ} {users roles : DB} {world : ω} {start : Interpreter DB δ ω}
    {later : List (Event × Result)}
    (hopen : (DB.onFiles name { enableCache := true } im).open indet = some (res, roles))
    (hsound : roles.ledger.Sound) (hstart : Interpreter.new dbt users roles world = .ok start)
    (hrun : Run (Steps next fun _ _ => True) start.initCommands trace s)
    (hlater : Run (Steps next fun _ _ => True) s later s') :
    (∀ role value, Store.get s.roles role = some value → Store.get s'.roles role = some value) ∧
    (∀ role value, Store.get s'.roles role = some value →
      Store.get s.roles role = some value ∨ ∃ e ∈ later, MadeBy role value e) ∧
    (∀ role value, (role, value) ∈ Store.entries s'.roles ↔
      Store.get s'.roles role = some value) ∧
    ∀ e ∈ later, DeletesRole e.1 → ¬ e.2.ok := by
  have hinv : Tabled s.ct ∧ Intact s.roles := by
    refine hrun.invariant (I := fun s => Tabled s.ct ∧ Intact s.roles) ⟨tabled_start hstart, ?_⟩ ?_
    · obtain ⟨⟨res, roles'⟩, hset, hstart⟩ := bind_eq_ok hstart
      cases hstart
      exact (Intact.set ⟨hsound, DB.mirror_of_open hopen hsound.toInside⟩ hset).1
    · rintro s e s' ⟨htabled, hintact⟩ ⟨_, hnext⟩
      have hstep := toOption_eq_some.mp hnext
      refine ⟨tabled_handle htabled hstep, ?_⟩
      obtain hsame | ⟨_, _, _, hset, _⟩ := (handle_roles htabled hstep).1
      · exact hsame ▸ hintact
      · exact (hintact.set hset).1
  have hkept : Tabled s'.ct ∧ Intact s'.roles ∧
      (∀ role value, Store.get s.roles role = some value → Store.get s'.roles role = some value) ∧
      (∀ role value, Store.get s'.roles role = some value →
        Store.get s.roles role = some value ∨ ∃ e ∈ later, MadeBy role value e) ∧
      ∀ e ∈ later, DeletesRole e.1 → ¬ e.2.ok := by
    refine hlater.history (I := fun later s' => Tabled s'.ct ∧ Intact s'.roles ∧
      (∀ role value, Store.get s.roles role = some value → Store.get s'.roles role = some value) ∧
      (∀ role value, Store.get s'.roles role = some value →
        Store.get s.roles role = some value ∨ ∃ e ∈ later, MadeBy role value e) ∧
      ∀ e ∈ later, DeletesRole e.1 → ¬ e.2.ok)
      ⟨hinv.1, hinv.2, fun _ _ => id, fun _ _ => .inl, fun e he => absurd he List.not_mem_nil⟩ ?_
    rintro later s₁ ⟨e, r⟩ s₂ ⟨htabled, hintact, hold, hnew, hnever⟩ ⟨_, hnext⟩
    have hstep := toOption_eq_some.mp hnext
    obtain ⟨hroles, hdelete⟩ := handle_roles htabled hstep
    have hnever' : ∀ e' ∈ later ++ [(e, r)], DeletesRole e'.1 → ¬ e'.2.ok := by
      intro e' he'
      obtain he' | he' := List.mem_append.mp he'
      · exact hnever e' he'
      · rw [List.mem_singleton.mp he']
        exact hdelete
    have hearlier : ∀ role value, (∃ e ∈ later, MadeBy role value e) →
        ∃ e' ∈ later ++ [(e, r)], MadeBy role value e' :=
      fun _ _ ⟨e', he', hmade⟩ => ⟨e', List.mem_append_left _ he', hmade⟩
    refine ⟨tabled_handle htabled hstep, ?_⟩
    obtain hsame | ⟨name, f, res, hset, hmade⟩ := hroles
    · rw [hsame]
      exact ⟨hintact, hold, fun role value h => (hnew role value h).imp_right (hearlier _ _), hnever'⟩
    · obtain ⟨hintact', hmap⟩ := hintact.set hset
      obtain ⟨hkeeps, hadds⟩ := onMap_set hmap
      refine ⟨hintact', fun role value h => hkeeps _ _ (hold _ _ h), fun role value h => ?_, hnever'⟩
      obtain h | ⟨hok, rfl, rfl⟩ := hadds role value h
      · exact (hnew role value h).imp_right (hearlier _ _)
      · exact .inr ⟨(e, r), List.mem_append_right _ List.mem_cons_self, hmade hok⟩
  obtain ⟨_, hintact, hold, hnew, hnever⟩ := hkept
  exact ⟨hold, hnew, hintact.mem_entries, hnever⟩

end

section
attribute [local instance] littleEndian

/-- A role is made, and an attempt to delete it fails. -/
theorem roles_kept_made : ∃ start before later, ∃ s s' : Interpreter DB Volume Disk,
    newServer = .ok start ∧ Run (Steps next fun _ _ => True) start.initCommands before s ∧
      Run (Steps next fun _ _ => True) s later s' ∧ later.length = 2 ∧
      (∀ role value, Store.get s.roles role = some value → Store.get s'.roles role = some value) ∧
      ∀ e ∈ later, DeletesRole e.1 → ¬ e.2.ok := by
  have hrun : ∃ start ∈ newServer.toOption, ∃ out ∈ runAll next start.initCommands
      [line 1 "create_user" ["root", "pw"], line 1 "login" ["root", "pw"]],
      ∃ out' ∈ runAll next out.2 [line 1 "create_role" ["dev", "GET"],
        line 1 "delete_role" ["dev"]], out'.1.length = 2 := by
    decide +kernel
  obtain ⟨start, hstart, ⟨t₁, s₁⟩, h₁, ⟨t₂, s₂⟩, h₂, hlen⟩ := hrun
  have hstart := toOption_eq_some.mp hstart
  have hopen : (DB.onFiles (str "__ACI_ROLES__") { enableCache := true }
      ⟨.empty, .empty, .empty⟩).open 0 = some (.success, DB.opened (str "__ACI_ROLES__") {}) :=
    DB.open_new 0 _ {}
  have hkept := roles_kept hopen (DB.opened_sound _ _) hstart (run_runAll h₁) (run_runAll h₂)
  exact ⟨start, t₁, t₂, s₁, s₂, hstart, run_runAll h₁, run_runAll h₂, hlen, hkept.1, hkept.2.2.2⟩

end

end Ambry.Aci
