import Ambry.Aci.FileSystem
import Ambry.Aci.NoLogin
import Ambry.Aci.RecordCodec
import Ambry.Aci.StoredUsers

/-!
# The argument list

The check of the arity knows one number for each command. It is enough for every
handler that uses a fixed number of arguments and has that number in the table.
`set` and `update` use the first argument and have no number, and `remove_roles`
takes an argument for every role that is to stay.
-/

namespace Ambry.Aci

open Foundation Interpreter

/-- The call uses no element behind the end of the argument list. -/
def Spares {α : Type} (x : Outcome α) : Prop := x ≠ .error .argument

namespace Spares

variable {α β : Type}

theorem ok (a : α) : Spares (.ok a : Outcome α) := fun h => by cases h

theorem error {e : Fault} (he : e ≠ .argument) : Spares (.error e : Outcome α) :=
  fun h => he (Except.error.inj h)

theorem bind_eq {x : Outcome α} {f : α → Outcome β} (hf : ∀ a, Spares (f a)) :
    x >>= f = .error .argument ↔ x = .error .argument := by
  cases x with
  | error e =>
    constructor
    · intro h
      cases h
      rfl
    · intro h
      cases h
      rfl
  | ok a => exact iff_of_false (hf a) fun h => by cases h

theorem bind {x : Outcome α} {f : α → Outcome β} (hx : Spares x) (hf : ∀ a, Spares (f a)) :
    Spares (x >>= f) :=
  fun h => hx ((bind_eq hf).mp h)

theorem foldlM {body : β → α → Outcome β} (hbody : ∀ b a, Spares (body b a)) (l : List α) (b : β) :
    Spares (l.foldlM body b) := by
  induction l generalizing b with
  | nil => exact .ok b
  | cons a l ih =>
    rw [List.foldlM_cons]
    exact .bind (hbody b a) ih

theorem ofOption (x : Option α) : Spares (Aci.ofOption x) := by
  cases x with
  | none => exact .error (by decide)
  | some a => exact .ok a

theorem appendFormat (out : Bytes) (fmt : String) (a : List Bytes) :
    Spares (appendFormat out fmt a) := by
  rw [Aci.appendFormat]
  split
  · exact ok _
  · exact error (by decide)

theorem front {args : List Bytes} (h : 1 ≤ args.length) : Spares (front args) := by
  cases args with
  | nil => cases h
  | cons arg rest => exact .ok arg

theorem getField (data : Bytes) (offset : Nat) : Spares (getField data offset) := fun h => by
  cases getField_error h

theorem walk {data : Bytes} {body : β → Bytes → Outcome β} (hbody : ∀ b role, Spares (body b role))
    (turns offset : Nat) (b : β) : Spares (walk data body turns offset b) := by
  induction turns generalizing offset b with
  | zero => exact .ok b
  | succ turns ih =>
    rw [Aci.walk]
    split
    · exact .bind (getField data offset) fun role => .bind (hbody b role) fun b => ih _ b
    · exact .ok b

theorem fromStr [Machine] (str : Bytes) : Spares (fromStr str) := by
  rw [Aci.fromStr]
  split
  · exact .ok _
  · exact .error (by decide)

end Spares

/-- The calls on a store never fail for the argument list of a command. -/
class SilentStore (σ : Type) [Store σ] : Prop where
  set : ∀ (s : σ) key value, Spares (Store.set s key value)
  update : ∀ (s : σ) key value, Spares (Store.update s key value)
  erase : ∀ (s : σ) key, Spares (Store.erase s key)

/-- Nor do the calls on an open database. -/
class SilentDatabase (δ : Type) {ω : Type} [Database δ ω] : Prop where
  «open» : ∀ (db : δ) world, Spares (Database.open db world)
  close : ∀ (db : δ) world, Spares (Database.close db world)
  destroy : ∀ (db : δ) world, Spares (Database.destroy db world)
  switchCache : ∀ on (db : δ) world, Spares (Database.switchCache on db world)
  get : ∀ key (db : δ) world, Spares (Database.get key db world)
  getCached : ∀ key (db : δ) world, Spares (Database.getCached key db world)
  set : ∀ key value (db : δ) world, Spares (Database.set key value db world)
  update : ∀ key value (db : δ) world, Spares (Database.update key value db world)
  erase : ∀ key (db : δ) world, Spares (Database.erase key db world)
  destroyFiles : ∀ name world, Spares (Database.destroyFiles δ name world)

section
variable {σ δ ω : Type}

namespace Spares

theorem wdbSlot (s : Interpreter σ δ ω) (fd : Int) : Spares (s.wdbSlot fd) := by
  rw [Interpreter.wdbSlot]
  split
  · exact .ok _
  · exact .error (by decide)

theorem setWdb (s : Interpreter σ δ ω) (fd : Int) (wdb : Option Address) :
    Spares (s.setWdb fd wdb) := by
  rw [Interpreter.setWdb]
  split
  · exact .ok _
  · exact .error (by decide)

theorem releaseWdb (s : Interpreter σ δ ω) (fd : Int) (addr : Address) :
    Spares (s.releaseWdb fd addr) := by
  refine .bind (wdbSlot s fd) fun wdb => ?_
  split
  · exact setWdb s fd none
  · exact .ok s

theorem derefWdb (s : Interpreter σ δ ω) (fd : Int) : Spares (s.derefWdb fd) := by
  refine .bind (wdbSlot s fd) fun wdb => ?_
  split
  · exact .error (by decide)
  · split
    · exact .ok _
    · exact .error (by decide)

theorem onWdb {α : Type} {m : Method δ ω α} (hm : ∀ db world, Spares (m db world))
    (s : Interpreter σ δ ω) (fd : Int) : Spares (s.onWdb fd m) :=
  .bind (derefWdb s fd) fun entry => .bind (hm entry.2.db s.world) fun _ => .ok _

end Spares

/-! ### The handlers -/

/-- How many arguments the function uses, whatever they are. -/
def CmdFN.uses : CmdFN → Nat
  | .openCb | .closeCb | .switchCb | .cacheModeCb | .setCb | .updateCb | .getCb | .eraseCb
  | .destroyCb | .createRoleCb | .addRolesCb | .removeRolesCb | .deleteUserCb | .deleteRoleCb
  | .userRolesCb => 1
  | .createUserCb | .loginCb => 2
  | _ => 0

namespace Spares

variable (s : Interpreter σ δ ω) (cmd : Cmd) (fd : Int)

theorem switchCb (h : 1 ≤ cmd.args.length) : Spares (switchCb cmd fd s) := by
  refine .bind (.front h) fun name => ?_
  split
  · exact .ok _
  · exact .bind (setWdb s fd _) fun _ => .ok _

theorem updateSetImpl {m : Bytes → Bytes → Method δ ω Ambry.Result}
    (hm : ∀ key value db world, Spares (m key value db world)) (h : 1 ≤ cmd.args.length) :
    Spares (updateSetImpl m cmd fd s) := by
  refine .bind (.front h) fun key => ?_
  exact .bind (onWdb (hm key _) s fd) fun _ => .ok _

theorem workingDbCb [Database δ ω] : Spares (workingDbCb cmd fd s) := .bind (derefWdb s fd) fun _ => .ok _

section
variable [Database δ ω] [SilentDatabase δ]

theorem closeEach (world : ω) (entries : List (Σ _ : Bytes, Node δ)) :
    Spares (closeEach world entries) := by
  refine .foldlM (fun world e => ?_) entries world
  exact .bind (SilentDatabase.close e.2.db world) fun _ => .ok _

theorem destroyEach (entries : List (Σ _ : Bytes, Node δ)) (dbt : DBTable δ) (world : ω) :
    Spares (destroyEach entries dbt world) := by
  induction entries generalizing dbt world with
  | nil => exact .ok _
  | cons e entries ih =>
    refine .bind (SilentDatabase.destroy e.2.db world) fun out => ?_
    dsimp only
    split
    · exact ih _ _
    · exact .ok _

theorem openCb (h : 1 ≤ cmd.args.length) : Spares (openCb cmd fd s) := by
  refine .bind (.front h) fun name => ?_
  split
  · exact .ok _
  split
  · exact .bind (setWdb s fd _) fun _ => .ok _
  · refine .bind (setWdb _ fd _) fun s => ?_
    exact .bind (onWdb SilentDatabase.open s fd) fun _ => .ok _

theorem closeCb (h : 1 ≤ cmd.args.length) : Spares (closeCb cmd fd s) := by
  refine .bind (.front h) fun name => ?_
  split
  · exact .ok _
  · refine .bind (releaseWdb s fd _) fun s => ?_
    exact .bind (SilentDatabase.close _ s.world) fun _ => .ok _

theorem cacheModeCb (h : 1 ≤ cmd.args.length) : Spares (cacheModeCb cmd fd s) := by
  refine .bind (.front h) fun arg => ?_
  split
  · exact .bind (onWdb (SilentDatabase.switchCache true) s fd) fun _ => .ok _
  split
  · exact .bind (onWdb (SilentDatabase.switchCache false) s fd) fun _ => .ok _
  · exact .ok _

theorem getCb (h : 1 ≤ cmd.args.length) : Spares (getCb cmd fd s) := by
  refine .bind (.front h) fun key => .bind (derefWdb s fd) fun entry => ?_
  refine .bind (onWdb (fun db world => ?_) s fd) fun out => ?_
  · split
    · exact SilentDatabase.getCached key db world
    · exact SilentDatabase.get key db world
  · dsimp only
    split <;> exact .ok _

theorem eraseCb (h : 1 ≤ cmd.args.length) : Spares (eraseCb cmd fd s) := by
  refine .bind (.front h) fun key => ?_
  exact .bind (onWdb (SilentDatabase.erase key) s fd) fun _ => .ok _

theorem closeAllCb : Spares (closeAllCb cmd fd s) := by
  refine .bind (closeEach s.world s.dbt.entries) fun _ => ?_
  exact .bind (setWdb s fd none) fun _ => .ok _

theorem destroyCb (h : 1 ≤ cmd.args.length) : Spares (destroyCb cmd fd s) := by
  refine .bind (.front h) fun name => ?_
  split
  · exact .ok _
  split
  · exact .bind (SilentDatabase.destroyFiles name s.world) fun _ => .ok _
  · refine .bind (releaseWdb s fd _) fun s => ?_
    exact .bind (SilentDatabase.destroy _ s.world) fun _ => .ok _

theorem destroyAllCb : Spares (destroyAllCb cmd fd s) := by
  refine .bind (destroyEach s.dbt.entries s.dbt s.world) fun out => ?_
  dsimp only
  split
  · exact .bind (setWdb _ fd none) fun _ => .ok _
  · exact .ok _

end

section
variable [Store σ] [SilentStore σ]

theorem createUserCb (h : 2 ≤ cmd.args.length) : Spares (createUserCb cmd fd s) := by
  obtain ⟨username, password, rest, hargs⟩ := two_args h
  simp only [Aci.createUserCb, hargs]
  split
  · exact .ok _
  split
  · exact .bind (SilentStore.set _ _ _) fun _ => .ok _
  split
  · exact .ok _
  · exact .bind (SilentStore.set _ _ _) fun _ => .ok _

theorem createRoleCb [Machine] (h : 1 ≤ cmd.args.length) : Spares (createRoleCb cmd fd s) := by
  obtain ⟨name, flags, hargs⟩ := List.exists_cons_of_length_pos h
  simp only [Aci.createRoleCb, hargs]
  split
  · exact .ok _
  split
  · exact .ok _
  · exact .bind (SilentStore.set _ _ _) fun _ => .ok _

theorem addRolesCb (h : 1 ≤ cmd.args.length) : Spares (addRolesCb cmd fd s) := by
  obtain ⟨username, names, hargs⟩ := List.exists_cons_of_length_pos h
  simp only [Aci.addRolesCb, hargs]
  split
  · exact .ok _
  split
  · exact .ok _
  · exact .bind (SilentStore.update _ _ _) fun _ => .ok _

theorem deleteUserCb (h : 1 ≤ cmd.args.length) : Spares (deleteUserCb cmd fd s) := by
  refine .bind (.front h) fun name => .bind (SilentStore.erase s.users name) fun out => ?_
  dsimp only
  split <;> exact .ok _

theorem deleteRoleCb (h : 1 ≤ cmd.args.length) : Spares (deleteRoleCb cmd fd s) := by
  refine .bind (.front h) fun name => .bind (SilentStore.erase s.roles name) fun out => ?_
  dsimp only
  split <;> exact .ok _

end

section
variable [Store σ]

theorem loginCb (h : 2 ≤ cmd.args.length) : Spares (loginCb cmd fd s) := by
  obtain ⟨username, password, rest, hargs⟩ := two_args h
  simp only [Aci.loginCb, hargs]
  split
  · exact .ok _
  split
  · exact .ok _
  · refine .bind (getField _ 0) fun userpass => ?_
    split <;> exact .ok _

variable [Machine]

theorem permString (flagRaw : Bytes) : Spares (permString flagRaw) :=
  .bind (fromStr flagRaw) fun _ => .ok _

theorem showRolesCb : Spares (showRolesCb cmd fd s) := by
  refine .bind (.foldlM (fun out e => ?_) _ _) fun _ => .ok _
  exact .bind (permString e.2) fun _ => .ok _

theorem userRolesCb (h : 1 ≤ cmd.args.length) : Spares (userRolesCb cmd fd s) := by
  refine .bind (.front h) fun username => ?_
  split
  · exact .ok _
  · refine .bind (walk (fun out role => ?_) _ _ _) fun _ => .ok _
    rw [userRolesBody]
    split
    · exact .ok _
    · exact .bind (permString _) fun _ => .ok _

theorem calculatePerms (needed : FlagT) :
    Spares (s.calculatePerms fd needed) := by
  rw [Interpreter.calculatePerms]
  split
  · exact .ok _
  split
  · exact .ok _
  split
  · exact .ok _
  · refine .bind (walk (fun state role => ?_) _ _ _) fun _ => .ok _
    rw [permsBody]
    split
    · exact .ok _
    · exact .bind (fromStr _) fun _ => .ok _

end

end Spares

end

/-! ### The loop of `remove_roles` -/

/-- The names that a walk visits before it ends or fails. -/
def seenFrom (data : Bytes) : (turns offset : Nat) → List Bytes
  | 0, _ => []
  | turns + 1, offset =>
    if offset < data.length then
      match getField data offset with
      | .error _ => []
      | .ok role => role :: seenFrom data turns (offset + (role.length + 1))
    else []

theorem seenFrom_of_visited {data : Bytes} {turns offset : Nat} {roles : List Bytes}
    (h : visitedFrom data turns offset = .ok roles) : seenFrom data turns offset = roles := by
  induction turns generalizing offset roles with
  | zero =>
    cases h
    rfl
  | succ turns ih =>
    rw [visitedFrom] at h
    rw [seenFrom]
    split at h
    case isTrue hlt =>
      obtain ⟨role, hrole, h⟩ := bind_eq_ok h
      obtain ⟨rest, hrest, h⟩ := bind_eq_ok h
      cases h
      rw [if_pos hlt, hrole]
      dsimp only
      rw [ih hrest]
    case isFalse hlt =>
      cases h
      rw [if_neg hlt]

/-- The walk needs an argument for every role that it meets and is not to remove. -/
theorem walk_removeRoles (data : Bytes) (names : List Bytes) (turns offset : Nat)
    (state : List Bytes × Bytes) :
    walk data (removeRolesBody names) turns offset state = .error .argument ↔
      state.1.length < ((seenFrom data turns offset).filter (· ∉ names)).length := by
  induction turns generalizing offset state with
  | zero => exact iff_of_false (fun h => by cases h) (Nat.not_lt_zero _)
  | succ turns ih =>
    rw [walk, seenFrom]
    split
    case isFalse => exact iff_of_false (fun h => by cases h) (Nat.not_lt_zero _)
    cases hrole : getField data offset with
    | error e =>
      obtain rfl := getField_error hrole
      exact iff_of_false (fun h => by cases h) (Nat.not_lt_zero _)
    | ok role =>
      dsimp only
      by_cases hmem : role ∈ names
      · have hbody : removeRolesBody names state role = .ok state := if_pos hmem
        rw [List.filter_cons_of_neg (by simpa using hmem), ← ih]
        simp only [bind, Except.bind, hbody]
      · rw [List.filter_cons_of_pos (by simpa using hmem), List.length_cons]
        obtain ⟨iter, buff⟩ := state
        cases iter with
        | nil =>
          have hbody : removeRolesBody names ([], buff) role = .error .argument := if_neg hmem
          simp only [bind, Except.bind, hbody]
          exact iff_of_true trivial (Nat.succ_pos _)
        | cons name iter =>
          have hbody : removeRolesBody names (name :: iter, buff) role =
              .ok (iter, buff ++ field name) := if_neg hmem
          simp only [bind, Except.bind, hbody]
          rw [ih, List.length_cons]
          exact Nat.succ_lt_succ_iff.symm

section
variable {σ δ ω : Type} [Store σ] {s : Interpreter σ δ ω} {cmd : Cmd} {fd : Int}

/-- Some user has the first name, and more of the roles in the record are to stay than names
follow. -/
def Overruns (users : σ) (args : List Bytes) : Prop :=
  ∃ username names data, args = username :: names ∧ Store.get users username = some data ∧
    names.length <
      ((seenFrom data data.length (data.take (recordStart data)).length).filter (· ∉ names)).length

theorem overruns_iff {users : σ} {username data : Bytes} {names : List Bytes}
    (hget : Store.get users username = some data) : Overruns users (username :: names) ↔
      names.length < ((seenFrom data data.length (data.take (recordStart data)).length).filter
        (· ∉ names)).length := by
  constructor
  · rintro ⟨username', names', data', hargs', hget', hlt⟩
    cases hargs'
    cases hget.symm.trans hget'
    exact hlt
  · exact fun hlt => ⟨username, names, data, rfl, hget, hlt⟩

/-- For a record as the program writes them, the roles of the user count. -/
theorem overruns_encode {users : σ} {username : Bytes} {names : List Bytes} {r : UserRecord}
    (hget : Store.get users username = some r.encode) :
    Overruns users (username :: names) ↔ names.length < (r.roles.filter (· ∉ names)).length := by
  have hstart : (r.encode.take (recordStart r.encode)).length = recordStart r.encode := by
    rw [r.take_recordStart, r.recordStart_encode]
  have hvisited : visitedFrom r.encode r.encode.length (recordStart r.encode) = .ok r.roles :=
    (decodes_iff.mp r.decodes).2
  rw [overruns_iff hget, hstart, seenFrom_of_visited hvisited]

theorem removeRolesCb_argument [SilentStore σ] (s : Interpreter σ δ ω) (fd : Int)
    (h : 1 ≤ cmd.args.length) :
    removeRolesCb cmd fd s = .error .argument ↔ Overruns s.users cmd.args := by
  obtain ⟨username, names, hargs⟩ := List.exists_cons_of_length_pos h
  simp only [removeRolesCb, hargs]
  cases hget : Store.get s.users username with
  | none =>
    refine iff_of_false (fun h => by cases h) ?_
    rintro ⟨username', names', data, hargs', hget', _⟩
    cases hargs'
    rw [hget] at hget'
    cases hget'
  | some data =>
    have hwalk := walk_removeRoles data names data.length (data.take (recordStart data)).length
      (names, data.take (recordStart data))
    rw [overruns_iff hget, ← hwalk]
    refine Spares.bind_eq fun state => ?_
    exact .bind (SilentStore.update s.users username state.2) fun _ => .ok _

variable [Database δ ω] [Machine] [SilentStore σ] [SilentDatabase δ]

theorem callFn_argument {fn : CmdFN} (h : fn.uses ≤ cmd.args.length) :
    callFn fn cmd fd s = .error .argument ↔ fn = .removeRolesCb ∧ Overruns s.users cmd.args := by
  rcases eq_or_ne fn .removeRolesCb with rfl | hfn
  · exact (removeRolesCb_argument s fd h).trans (and_iff_right rfl).symm
  refine iff_of_false ?_ fun h => hfn h.1
  cases fn with
  | null => exact Spares.error (by decide)
  | openCb => exact Spares.openCb s cmd fd h
  | closeCb => exact Spares.closeCb s cmd fd h
  | switchCb => exact Spares.switchCb s cmd fd h
  | cacheModeCb => exact Spares.cacheModeCb s cmd fd h
  | setCb => exact Spares.updateSetImpl s cmd fd SilentDatabase.set h
  | updateCb => exact Spares.updateSetImpl s cmd fd SilentDatabase.update h
  | getCb => exact Spares.getCb s cmd fd h
  | eraseCb => exact Spares.eraseCb s cmd fd h
  | closeAllCb => exact Spares.closeAllCb s cmd fd
  | destroyCb => exact Spares.destroyCb s cmd fd h
  | destroyAllCb => exact Spares.destroyAllCb s cmd fd
  | createUserCb => exact Spares.createUserCb s cmd fd h
  | createRoleCb => exact Spares.createRoleCb s cmd fd h
  | loginCb => exact Spares.loginCb s cmd fd h
  | addRolesCb => exact Spares.addRolesCb s cmd fd h
  | removeRolesCb => exact absurd rfl hfn
  | deleteUserCb => exact Spares.deleteUserCb s cmd fd h
  | deleteRoleCb => exact Spares.deleteRoleCb s cmd fd h
  | showRolesCb => exact Spares.showRolesCb s cmd fd
  | userRolesCb => exact Spares.userRolesCb s cmd fd h
  | workingDbCb => exact Spares.workingDbCb s cmd fd
  | cmdsCb | listOpenCb | showUsersCb =>
    exact (Spares.foldlM (fun _ _ => Spares.appendFormat _ _ _) _ _).bind fun _ => Spares.ok _
  | logoutCb | activeUsersCb => exact Spares.ok _

end

/-! ### The table -/

theorem tail_arity : ∀ e ∈ (commandTable 0).tail,
    e.2.arity = -1 ∧ (e.2.fn = .setCb ∨ e.2.fn = .updateCb) ∨
      e.2.arity ≠ -1 ∧ e.2.fn.uses ≤ (e.2.arity % 2 ^ 64).toNat ∧ e.2.fn ≠ .setCb ∧
        e.2.fn ≠ .updateCb := by
  decide +kernel

/-- Every function has its arguments, except for the two whose arity is not checked. -/
theorem Tabled.arity {ct : CmdTable} (h : Tabled ct) {name : Bytes} {ch : CmdHandle}
    (hlookup : ct.lookup name = some ch) :
    ch.arity = -1 ∧ (ch.fn = .setCb ∨ ch.fn = .updateCb) ∨
      ch.arity ≠ -1 ∧ ch.fn.uses ≤ (ch.arity % 2 ^ 64).toNat ∧ ch.fn ≠ .setCb ∧
        ch.fn ≠ .updateCb := by
  obtain ⟨perms, hmem⟩ := h.entry name ch hlookup
  obtain hhead | htail := List.mem_cons.mp hmem
  · cases hhead
    have huses : (2 : Int) ≠ -1 ∧ CmdFN.createUserCb.uses ≤ ((2 : Int) % 2 ^ 64).toNat ∧
        CmdFN.createUserCb ≠ .setCb ∧ CmdFN.createUserCb ≠ .updateCb := by decide
    exact .inr huses
  · exact tail_arity _ htail

section
variable {σ δ ω : Type} [Store σ] [Database δ ω] [Machine] [SilentStore σ] [SilentDatabase δ]
  {s : Interpreter σ δ ω}

/-- The command gets a handler to use more arguments than it has: it is `set` or `update` without
any, or `remove_roles` with fewer names than there are roles to keep. -/
def Interpreter.Starved (s : Interpreter σ δ ω) (cmd : Cmd) (ch : CmdHandle) : Prop :=
  (ch.fn = .setCb ∨ ch.fn = .updateCb) ∧ cmd.args = [] ∨
    ch.fn = .removeRolesCb ∧ Overruns s.users cmd.args

theorem callFn_starved (htable : Tabled s.ct) {cmd : Cmd} {fd : Int} {ch : CmdHandle}
    (hpasses : s.Passes cmd fd ch) :
    callFn ch.fn cmd fd s = .error .argument ↔ s.Starved cmd ch := by
  rw [Interpreter.Starved]
  obtain ⟨_, hfn⟩ | ⟨hchecked, huses, hset, hupdate⟩ := htable.arity hpasses.lookup
  · have hone : ch.fn.uses = 1 := by obtain hfn | hfn := hfn <;> rw [hfn] <;> rfl
    have hremove : ch.fn ≠ .removeRolesCb := by
      obtain hfn | hfn := hfn <;> rw [hfn] <;> decide
    cases hargs : cmd.args with
    | nil =>
      refine iff_of_true ?_ (.inl ⟨hfn, rfl⟩)
      obtain hfn | hfn := hfn
      · rw [hfn]
        show (front cmd.args >>= _) = _
        rw [hargs]
        rfl
      · rw [hfn]
        show (front cmd.args >>= _) = _
        rw [hargs]
        rfl
    | cons arg rest =>
      rw [callFn_argument (by rw [hone, hargs]; exact Nat.le_add_left 1 _)]
      simp [hremove]
  · obtain harity | harity := hpasses.arity
    · exact absurd harity hchecked
    · rw [callFn_argument (huses.trans harity)]
      simp [hset, hupdate]

/-- In every state of a run: the handler of a command that gets past the checks uses no argument
behind the last one, unless it is starved. -/
theorem arguments_respected {dbt : DBTable δ} {users roles : σ} {world : ω}
    {start : Interpreter σ δ ω} {trace : List (Event × Result)}
    (hstart : Interpreter.new dbt users roles world = .ok start)
    (hrun : Run (Steps next fun _ _ => True) start.initCommands trace s) (cmd : Cmd) (fd : Int) :
    (∀ ch, s.Passes cmd fd ch → (Spares (callFn ch.fn cmd fd s) ↔ ¬ s.Starved cmd ch)) ∧
      (Spares (s.interpret callFn cmd fd) ↔ ¬ ∃ ch, s.Passes cmd fd ch ∧ s.Starved cmd ch) := by
  have htable := tabled_run hstart hrun
  refine ⟨fun ch hpasses => not_congr (callFn_starved htable hpasses), not_congr ?_⟩
  constructor
  · intro h
    obtain ⟨ch, hperms⟩ | ⟨ch, hpasses, hcall⟩ := interpret_error h
    · exact absurd hperms (Spares.calculatePerms s fd ch.perms)
    · exact ⟨ch, hpasses, (callFn_starved htable hpasses).mp hcall⟩
  · rintro ⟨ch, hpasses, hstarved⟩
    rw [interpret_of_passes hpasses]
    exact (callFn_starved htable hpasses).mpr hstarved

end

/-! ### The stores and the databases -/

namespace Spares

theorem openFile [Paths] (path : Bytes) (fs : FileSystem) : Spares (fs.openFile path) := by
  rw [FileSystem.openFile]
  split
  · exact .ok _
  split
  · split
    · exact .error (by decide)
    · exact .ok _
  · split
    · exact .error (by decide)
    · exact .ok _

theorem openEach [Paths] (paths : List Bytes) (fs : FileSystem) : Spares (fs.openEach paths) := by
  induction paths generalizing fs with
  | nil => exact .ok _
  | cons path paths ih =>
    refine .bind (openFile path fs) fun out => ?_
    dsimp only
    split
    · exact .ok _
    · exact .bind (ih _) fun _ => .ok _

theorem on {α : Type} (op : DB → Option (α × DB)) (f : FileDB) (fs : FileSystem) :
    Spares (FileDB.on op f fs) := by
  rw [FileDB.on]
  split
  · exact .bind (ofOption _) fun _ => .ok _
  · exact .error (by decide)

theorem loadEach (loads : List (DB → Option DB)) (db : DB) (fs : FileSystem) :
    Spares (fs.loadEach loads db) := by
  induction loads generalizing db fs with
  | nil => exact .ok _
  | cons load loads ih =>
    rw [FileSystem.loadEach]
    split
    · exact .ok _
    · exact .bind (ofOption _) fun _ => ih _ _

theorem openFileDB [Machine] [Paths] (f : FileDB) (fs : FileSystem) : Spares (f.open fs) := by
  refine .bind (openEach _ fs) fun out => ?_
  dsimp only
  split
  · exact .bind (loadEach _ _ _) fun _ => .ok _
  · exact .ok _

theorem tableSet (t : Table) (key value : Bytes) : Spares (t.set key value) := by
  rw [Table.set]
  split <;> exact .ok _

theorem tableUpdate (t : Table) (key value : Bytes) : Spares (t.update key value) := by
  rw [Table.update]
  split <;> exact .ok _

theorem tableErase (t : Table) (key : Bytes) : Spares (t.erase key) := by
  rw [Table.erase]
  split <;> exact .ok _

theorem write {op : Table → Outcome (Ambry.Result × Table)} (hop : ∀ t, Spares (op t)) (v : Volume)
    (disk : Disk) : Spares (Volume.write op v disk) :=
  .bind (hop v.table) fun _ => .ok _

end Spares

instance silentDB [Machine] : SilentStore DB where
  set _ _ _ := .ofOption _
  update _ _ _ := .ofOption _
  erase _ _ := .ofOption _

instance silentTable : SilentStore Table where
  set := .tableSet
  update := .tableUpdate
  erase := .tableErase

instance silentFileDB [Machine] [Paths] : SilentDatabase FileDB where
  «open» := .openFileDB
  close f fs := by
    show Spares (f.close fs)
    rw [FileDB.close]
    split
    · exact .ok _
    · exact .error (by decide)
  destroy f fs := by
    show Spares (f.destroy fs)
    rw [FileDB.destroy]
    split
    · exact .ok _
    · exact .error (by decide)
  switchCache on f fs := by
    change Spares (if on then FileDB.on _ f fs else _)
    split
    · exact .on _ f fs
    · exact .ok _
  get _ f fs := .on _ f fs
  getCached _ _ _ := .ok _
  set _ _ f fs := .on _ f fs
  update _ _ f fs := .on _ f fs
  erase _ f fs := .on _ f fs
  destroyFiles _ _ := .ok _

instance silentVolume : SilentDatabase Volume where
  «open» _ _ := .ok _
  close _ _ := .ok _
  destroy _ _ := .ok _
  switchCache _ _ _ := .ok _
  get _ _ _ := .ok _
  getCached _ _ _ := .ok _
  set key value := .write fun t => .tableSet t key value
  update key value := .write fun t => .tableUpdate t key value
  erase key := .write fun t => .tableErase t key
  destroyFiles _ _ := .ok _

section
attribute [local instance] littleEndian

/-- One role is to be removed, and it is the only one. -/
theorem arguments_respected_admin : ∃ trace s,
    Run (Steps next fun _ _ => True) (serverOn rootOnly).initCommands trace s ∧
      Spares (s.interpret callFn ⟨str "remove_roles", [str "root", str "admin"]⟩ 1) := by
  have hrun : ∃ trace s, Run (Steps next fun _ _ => True) (serverOn rootOnly).initCommands trace s ∧
      s.users.lookup (str "root") = some (field (str "pw") ++ field (str "admin")) :=
    exists_run [line 1 "login" ["root", "pw"]] (by decide +kernel) (by decide +kernel)
  obtain ⟨trace, s, hrun, hroot⟩ := hrun
  refine ⟨trace, s, hrun, (arguments_respected (new_serverOn rootOnly) hrun _ 1).2.mpr ?_⟩
  rintro ⟨ch, _, ⟨_, hnone⟩ | ⟨_, username, names, data, hargs, hget, hlt⟩⟩
  · cases hnone
  · cases hargs
    cases hroot.symm.trans hget
    exact absurd hlt (by decide +kernel)

/-- `set` without arguments; and a name to remove from a user who keeps two roles. -/
theorem arguments_missing : ∃ trace s,
    Run (Steps next fun _ _ => True) (serverOn rootOnly).initCommands trace s ∧
      (∃ ch, s.Passes ⟨str "set", []⟩ 1 ch ∧
        callFn ch.fn ⟨str "set", []⟩ 1 s = .error .argument) ∧
      ∃ ch, s.Passes ⟨str "remove_roles", [str "root", str "ops"]⟩ 1 ch ∧
        callFn ch.fn ⟨str "remove_roles", [str "root", str "ops"]⟩ 1 s = .error .argument := by
  have hrun : ∃ trace s, Run (Steps next fun _ _ => True) (serverOn rootOnly).initCommands trace s ∧
      (∃ ch ∈ s.ct.lookup (str "set"), s.Passes ⟨str "set", []⟩ 1 ch ∧ ch.fn = .setCb) ∧
      (∃ ch ∈ s.ct.lookup (str "remove_roles"),
        s.Passes ⟨str "remove_roles", [str "root", str "ops"]⟩ 1 ch ∧ ch.fn = .removeRolesCb) ∧
      s.users.lookup (str "root") =
        some (field (str "pw") ++ field (str "admin") ++ field (str "admin")) :=
    exists_run [line 1 "login" ["root", "pw"], line 1 "open" ["d"],
      line 1 "add_roles" ["root", "admin"]] (by decide +kernel) (by decide +kernel)
  obtain ⟨trace, s, hrun, ⟨set, _, hset, hsetFn⟩, ⟨remove, _, hremove, hremoveFn⟩, hroot⟩ := hrun
  have htable := tabled_run (new_serverOn rootOnly) hrun
  refine ⟨trace, s, hrun, ⟨set, hset, (callFn_starved htable hset).mpr (.inl ⟨.inl hsetFn, rfl⟩)⟩,
    remove, hremove, (callFn_starved htable hremove).mpr (.inr ⟨hremoveFn, ?_⟩)⟩
  exact ⟨str "root", [str "ops"], _, rfl, hroot, by decide +kernel⟩

end

end Ambry.Aci
