import Ambry.Aci.Interpreter

/-!
# Effects

Everything a command can do to the interpreter, said once. Each handler that
returns has one of these effects, with the arguments it was given and the calls
it made.
-/

namespace Ambry.Aci

open Foundation

variable {σ δ ω : Type} [Store σ] [Database δ ω]

/-- The handlers that leave the interpreter as it is. -/
def CmdFN.queries : List CmdFN :=
  [.cmdsCb, .listOpenCb, .activeUsersCb, .showRolesCb, .userRolesCb, .showUsersCb, .workingDbCb]

/-- The logins after the session has let go of the node at an address. -/
def released (s : Interpreter σ δ ω) (fd : Int) (login : Login) (addr : Address) :
    AList fun _ : Int => Login :=
  if login.wdb = some addr then s.logins.insert fd { login with wdb := none } else s.logins

/-- A call on a database object that neither opens nor closes it. -/
inductive Touched (db : δ) (world : ω) (db' : δ) (world' : ω) : Prop
  | switchCache (on : Bool) (h : Database.switchCache on db world = .ok ((), db', world'))
  | get (key : Bytes) (value : Option Bytes)
      (h : Database.get key db world = .ok (value, db', world'))
  | getCached (key : Bytes) (value : Option Bytes)
      (h : Database.getCached key db world = .ok (value, db', world'))
  | set (key value : Bytes) (res : Ambry.Result)
      (h : Database.set key value db world = .ok (res, db', world'))
  | update (key value : Bytes) (res : Ambry.Result)
      (h : Database.update key value db world = .ok (res, db', world'))
  | erase (key : Bytes) (res : Ambry.Result)
      (h : Database.erase key db world = .ok (res, db', world'))

inductive Effect (s : Interpreter σ δ ω) (cmd : Cmd) (fd : Int) :
    CmdFN → Result → Interpreter σ δ ω → Prop
  | refused {fn : CmdFN} {r : Result} (hr : ¬ r.ok) : Effect s cmd fd fn r s
  | answered {fn : CmdFN} {r : Result} (hfn : fn ∈ CmdFN.queries) : Effect s cmd fd fn r s
  | onWdb {fn : CmdFN} {r : Result} {name : Bytes} {node : Node δ} {db : δ} {world : ω}
      (hfn : fn ∈ [.cacheModeCb, .setCb, .updateCb, .getCb, .eraseCb])
      (hnode : s.derefWdb fd = .ok ⟨name, node⟩) (hcall : Touched node.db s.world db world) :
      Effect s cmd fd fn r { s with dbt := s.dbt.insert name { node with db }, world }
  | opened {name : Bytes} {rest : List Bytes} {res : Ambry.Result} {addr : Address} {db : δ}
      {world : ω} {login : Login} (hargs : cmd.args = name :: rest)
      (hallowed : name ∉ s.restrictedDbs) (hnew : s.dbt.lookup name = none)
      (haddr : Database.alloc δ s.world (s.dbt.entries.map fun e => e.2.addr) = addr)
      (hopen : Database.open (Database.new name) s.world = .ok (res, db, world))
      (hlogin : s.logins.lookup fd = some login) :
      Effect s cmd fd .openCb (toRes res)
        { s with
          dbt := s.dbt.insert name ⟨addr, db⟩
          logins := s.logins.insert fd { login with wdb := some addr }, world }
  | switched {fn : CmdFN} {name : Bytes} {rest : List Bytes} {node : Node δ} {login : Login}
      (hfn : fn ∈ [.openCb, .switchCb]) (hargs : cmd.args = name :: rest)
      (hnode : s.dbt.lookup name = some node) (hlogin : s.logins.lookup fd = some login) :
      Effect s cmd fd fn (output [])
        { s with logins := s.logins.insert fd { login with wdb := some node.addr } }
  | closed {name : Bytes} {rest : List Bytes} {node : Node δ} {db : δ} {world : ω} {login : Login}
      (hargs : cmd.args = name :: rest) (hnode : s.dbt.lookup name = some node)
      (hclose : Database.close node.db s.world = .ok ((), db, world))
      (hlogin : s.logins.lookup fd = some login) :
      Effect s cmd fd .closeCb (output [])
        { s with dbt := s.dbt.erase name, logins := released s fd login node.addr, world }
  | closedAll {world : ω} {login : Login} (hclose : closeEach s.world s.dbt.entries = .ok world)
      (hlogin : s.logins.lookup fd = some login) :
      Effect s cmd fd .closeAllCb (output [])
        { s with dbt := ∅, logins := s.logins.insert fd { login with wdb := none }, world }
  | unlinked {name : Bytes} {rest : List Bytes} {res : Ambry.Result} {world : ω}
      (hargs : cmd.args = name :: rest) (hallowed : name ∉ s.restrictedDbs)
      (hnew : s.dbt.lookup name = none)
      (hdestroy : Database.destroyFiles δ name s.world = .ok (res, world)) :
      Effect s cmd fd .destroyCb (toRes res) { s with world }
  | destroyed {name : Bytes} {rest : List Bytes} {node : Node δ} {res : Ambry.Result} {db : δ}
      {world : ω} {login : Login} (hargs : cmd.args = name :: rest)
      (hallowed : name ∉ s.restrictedDbs) (hnode : s.dbt.lookup name = some node)
      (hdestroy : Database.destroy node.db s.world = .ok (res, db, world))
      (hlogin : s.logins.lookup fd = some login) :
      Effect s cmd fd .destroyCb (toRes res)
        { s with
          dbt := s.dbt.insert name { node with db }, logins := released s fd login node.addr, world }
  | destroyedAll {res : Ambry.Result} {dbt : DBTable δ} {world : ω} {login : Login}
      (hdestroy : destroyEach s.dbt.entries s.dbt s.world = .ok (res, dbt, world)) (hok : res.ok)
      (hlogin : s.logins.lookup fd = some login) :
      Effect s cmd fd .destroyAllCb (output [])
        { s with dbt := ∅, logins := s.logins.insert fd { login with wdb := none }, world }
  | destroyedSome {res : Ambry.Result} {dbt : DBTable δ} {world : ω}
      (hdestroy : destroyEach s.dbt.entries s.dbt s.world = .ok (res, dbt, world))
      (hfail : ¬ res.ok) :
      Effect s cmd fd .destroyAllCb (toRes res) { s with dbt, world }
  | roles {fn : CmdFN} {r : Result} {roles : σ} (hfn : fn ∈ [.createRoleCb, .deleteRoleCb]) :
      Effect s cmd fd fn r { s with roles }
  | createdFirst {username password : Bytes} {rest : List Bytes} {res : Ambry.Result} {users : σ}
      (hargs : cmd.args = username :: password :: rest) (hpassword : password.length ≤ 255)
      (hsize : Store.size s.users = 0)
      (hset : Store.set s.users username (field password ++ field (str "admin")) =
        .ok (res, users)) :
      Effect s cmd fd .createUserCb (toRes res)
        { s.setPerms (str "create_user") ADMIN with users }
  | createdUser {username password : Bytes} {rest : List Bytes} {more : Bytes} {res : Ambry.Result}
      {users : σ} (hargs : cmd.args = username :: password :: rest)
      (hpassword : password.length ≤ 255) (hsize : Store.size s.users ≠ 0)
      (happend : appendRoles s.roles (field password) rest = .ok (field password ++ more))
      (hset : Store.set s.users username (field password ++ more) = .ok (res, users)) :
      Effect s cmd fd .createUserCb (toRes res) { s with users }
  | addedRoles {username data more : Bytes} {names : List Bytes} {res : Ambry.Result} {users : σ}
      (hargs : cmd.args = username :: names) (hget : Store.get s.users username = some data)
      (hadd : addRoles s.roles data names = some (data ++ more))
      (hupdate : Store.update s.users username (data ++ more) = .ok (res, users)) :
      Effect s cmd fd .addRolesCb (toRes res) { s with users }
  | removedRoles {username data buff : Bytes} {names iter : List Bytes} {res : Ambry.Result}
      {users : σ} (hargs : cmd.args = username :: names)
      (hget : Store.get s.users username = some data)
      (hwalk : walk data (removeRolesBody names) data.length (data.take (recordStart data)).length
        (names, data.take (recordStart data)) = .ok (iter, buff))
      (hupdate : Store.update s.users username buff = .ok (res, users)) :
      Effect s cmd fd .removeRolesCb (toRes res) { s with users }
  | deletedUser {name : Bytes} {rest : List Bytes} {r : Result} {res : Ambry.Result} {users : σ}
      (hargs : cmd.args = name :: rest) (herase : Store.erase s.users name = .ok (res, users))
      (hr : r.ok ↔ res.ok) : Effect s cmd fd .deleteUserCb r { s with users }
  | loggedIn {username password data : Bytes} {rest : List Bytes}
      (hargs : cmd.args = username :: password :: rest) (hnew : fd ∉ s.logins)
      (hget : Store.get s.users username = some data) (hfield : getField data 0 = .ok password) :
      Effect s cmd fd .loginCb (output [])
        { s with logins := s.logins.insert fd { name := username } }
  | loggedOut : Effect s cmd fd .logoutCb (output []) { s with logins := s.logins.erase fd }

theorem front_eq_ok {args : List Bytes} {arg : Bytes} (h : front args = .ok arg) :
    ∃ rest, args = arg :: rest := by
  cases args with
  | nil => cases h
  | cons arg rest =>
    cases h
    exact ⟨rest, rfl⟩

namespace Interpreter

variable {s s' : Interpreter σ δ ω} {fd : Int}

omit [Store σ] [Database δ ω] in
theorem wdbSlot_eq_ok {wdb : Option Address} (h : s.wdbSlot fd = .ok wdb) :
    ∃ login, s.logins.lookup fd = some login ∧ login.wdb = wdb := by
  rw [wdbSlot] at h
  split at h
  · cases h
    exact ⟨_, by assumption, rfl⟩
  · cases h

omit [Store σ] [Database δ ω] in
theorem setWdb_eq_ok {wdb : Option Address} (h : s.setWdb fd wdb = .ok s') :
    ∃ login, s.logins.lookup fd = some login ∧
      s' = { s with logins := s.logins.insert fd { login with wdb } } := by
  rw [setWdb] at h
  split at h
  · cases h
    exact ⟨_, by assumption, rfl⟩
  · cases h

omit [Store σ] [Database δ ω] in
theorem onWdb_eq_ok {α : Type} {m : Method δ ω α} {a : α} (h : s.onWdb fd m = .ok (a, s')) :
    ∃ name node db world, s.derefWdb fd = .ok ⟨name, node⟩ ∧
      m node.db s.world = .ok (a, db, world) ∧
      s' = { s with dbt := s.dbt.insert name { node with db }, world } := by
  obtain ⟨⟨name, node⟩, hnode, h⟩ := bind_eq_ok h
  obtain ⟨⟨a, db, world⟩, hm, h⟩ := bind_eq_ok h
  cases h
  exact ⟨name, node, db, world, hnode, hm, rfl⟩

omit [Store σ] [Database δ ω] in
theorem derefWdb_lookup {name : Bytes} {node : Node δ} (h : s.derefWdb fd = .ok ⟨name, node⟩) :
    s.dbt.lookup name = some node := by
  obtain ⟨wdb, _, h⟩ := bind_eq_ok h
  cases wdb with
  | none => cases h
  | some addr =>
    dsimp only at h
    split at h
    case h_1 entry hentry =>
      cases h
      exact AList.mem_lookup_iff.mpr (List.mem_of_find?_eq_some hentry)
    case h_2 => cases h

omit [Store σ] [Database δ ω] in
theorem derefWdb_new (s : Interpreter σ δ ω) (fd : Int) (login : Login) (name : Bytes)
    (addr : Address) (db : δ) :
    derefWdb { s with
      dbt := s.dbt.insert name ⟨addr, db⟩
      logins := s.logins.insert fd { login with wdb := some addr } } fd =
        .ok ⟨name, ⟨addr, db⟩⟩ := by
  simp [derefWdb, wdbSlot, entryAt, AList.entries_insert, bind, Except.bind]

omit [Store σ] [Database δ ω] in
theorem releaseWdb_eq_ok {addr : Address} (h : s.releaseWdb fd addr = .ok s') :
    ∃ login, s.logins.lookup fd = some login ∧
      s' = { s with logins := released s fd login addr } := by
  obtain ⟨wdb, hwdb, h⟩ := bind_eq_ok h
  obtain ⟨login, hlogin, rfl⟩ := wdbSlot_eq_ok hwdb
  refine ⟨login, hlogin, ?_⟩
  rw [released]
  split at h
  case isTrue hheld =>
    rw [setWdb, hlogin] at h
    cases h
    rw [if_pos hheld]
  case isFalse hheld =>
    cases h
    rw [if_neg hheld]

end Interpreter

open Interpreter

variable {s s' : Interpreter σ δ ω} {cmd : Cmd} {fd : Int} {r : Result}

theorem interErr_not_ok (msg : String) : ¬ (interErr msg).ok := by
  rw [BasicResult.ok, decide_eq_true_eq]
  nofun

theorem updateSetImpl_effect {fn : CmdFN} {m : Bytes → Bytes → Method δ ω Ambry.Result}
    (hfn : fn ∈ [.cacheModeCb, .setCb, .updateCb, .getCb, .eraseCb])
    (htouched : ∀ {key value db world res db' world'},
      m key value db world = .ok (res, db', world') → Touched db world db' world')
    (h : updateSetImpl m cmd fd s = .ok (r, s')) : Effect s cmd fd fn r s' := by
  obtain ⟨key, _, h⟩ := bind_eq_ok h
  obtain ⟨⟨res, s₁⟩, hm, h⟩ := bind_eq_ok h
  cases h
  obtain ⟨name, node, db, world, hnode, hcall, rfl⟩ := onWdb_eq_ok hm
  exact .onWdb hfn hnode (htouched hcall)

theorem eraseCb_effect (h : eraseCb cmd fd s = .ok (r, s')) : Effect s cmd fd .eraseCb r s' := by
  obtain ⟨key, _, h⟩ := bind_eq_ok h
  obtain ⟨⟨res, s₁⟩, hm, h⟩ := bind_eq_ok h
  cases h
  obtain ⟨name, node, db, world, hnode, hcall, rfl⟩ := onWdb_eq_ok hm
  exact .onWdb (by decide) hnode (.erase _ _ hcall)

theorem getCb_effect (h : getCb cmd fd s = .ok (r, s')) : Effect s cmd fd .getCb r s' := by
  obtain ⟨key, _, h⟩ := bind_eq_ok h
  obtain ⟨_, _, h⟩ := bind_eq_ok h
  obtain ⟨⟨opt, s₁⟩, hm, h⟩ := bind_eq_ok h
  obtain ⟨name, node, db, world, hnode, hcall, rfl⟩ := onWdb_eq_ok hm
  have htouched : Touched node.db s.world db world := by
    split at hcall
    · exact .getCached _ _ hcall
    · exact .get _ _ hcall
  cases opt <;> cases h <;> exact .onWdb (by decide) hnode htouched

theorem cacheModeCb_effect (h : cacheModeCb cmd fd s = .ok (r, s')) :
    Effect s cmd fd .cacheModeCb r s' := by
  obtain ⟨arg, _, h⟩ := bind_eq_ok h
  split at h
  · obtain ⟨⟨_, s₁⟩, hm, h⟩ := bind_eq_ok h
    cases h
    obtain ⟨name, node, db, world, hnode, hcall, rfl⟩ := onWdb_eq_ok hm
    exact .onWdb (by decide) hnode (.switchCache _ hcall)
  split at h
  · obtain ⟨⟨_, s₁⟩, hm, h⟩ := bind_eq_ok h
    cases h
    obtain ⟨name, node, db, world, hnode, hcall, rfl⟩ := onWdb_eq_ok hm
    exact .onWdb (by decide) hnode (.switchCache _ hcall)
  · cases h
    exact .refused (interErr_not_ok _)

omit [Store σ] in
theorem openCb_new {name : Bytes} {rest : List Bytes} (hargs : cmd.args = name :: rest)
    (hallowed : name ∉ s.restrictedDbs) (hnew : s.dbt.lookup name = none)
    (h : openCb cmd fd s = .ok (r, s')) :
    ∃ res addr db world login,
      Database.alloc δ s.world (s.dbt.entries.map fun e => e.2.addr) = addr ∧
      Database.open (Database.new name) s.world = .ok (res, db, world) ∧
      s.logins.lookup fd = some login ∧ r = toRes res ∧
      s' = { s with
        dbt := s.dbt.insert name ⟨addr, db⟩
        logins := s.logins.insert fd { login with wdb := some addr }, world } := by
  rw [openCb, hargs] at h
  obtain ⟨_, hname, h⟩ := bind_eq_ok h
  cases hname
  rw [if_neg hallowed, hnew] at h
  obtain ⟨s₁, hs₁, h⟩ := bind_eq_ok h
  obtain ⟨⟨res, s₂⟩, hs₂, h⟩ := bind_eq_ok h
  cases h
  obtain ⟨login, hlogin, rfl⟩ := setWdb_eq_ok hs₁
  obtain ⟨name', node, db, world, hnode, hopen, rfl⟩ := onWdb_eq_ok hs₂
  cases hnode.symm.trans (derefWdb_new s fd login name _ _)
  simp only [AList.insert_insert]
  exact ⟨res, _, db, world, login, rfl, hopen, hlogin, rfl, rfl⟩

theorem openCb_effect (h : openCb cmd fd s = .ok (r, s')) : Effect s cmd fd .openCb r s' := by
  have hcall := h
  obtain ⟨name, hargs, h⟩ := bind_eq_ok h
  obtain ⟨rest, hargs⟩ := front_eq_ok hargs
  split at h
  · cases h
    exact .refused (interErr_not_ok _)
  case isFalse hallowed =>
  split at h
  case h_1 node hnode =>
    obtain ⟨s₁, hs₁, h⟩ := bind_eq_ok h
    cases h
    obtain ⟨login, hlogin, rfl⟩ := setWdb_eq_ok hs₁
    exact .switched (by decide) hargs hnode hlogin
  case h_2 hnew =>
    obtain ⟨res, addr, db, world, login, haddr, hopen, hlogin, rfl, rfl⟩ :=
      openCb_new hargs hallowed hnew hcall
    exact .opened hargs hallowed hnew haddr hopen hlogin

theorem switchCb_effect (h : switchCb cmd fd s = .ok (r, s')) : Effect s cmd fd .switchCb r s' := by
  obtain ⟨name, hargs, h⟩ := bind_eq_ok h
  obtain ⟨rest, hargs⟩ := front_eq_ok hargs
  split at h
  case h_1 =>
    cases h
    exact .refused (interErr_not_ok _)
  case h_2 node hnode =>
    obtain ⟨s₁, hs₁, h⟩ := bind_eq_ok h
    cases h
    obtain ⟨login, hlogin, rfl⟩ := setWdb_eq_ok hs₁
    exact .switched (by decide) hargs hnode hlogin

theorem closeCb_effect (h : closeCb cmd fd s = .ok (r, s')) : Effect s cmd fd .closeCb r s' := by
  obtain ⟨name, hargs, h⟩ := bind_eq_ok h
  obtain ⟨rest, hargs⟩ := front_eq_ok hargs
  split at h
  case h_1 =>
    cases h
    exact .refused (interErr_not_ok _)
  case h_2 node hnode =>
    obtain ⟨s₁, hs₁, h⟩ := bind_eq_ok h
    obtain ⟨⟨_, db, world⟩, hclose, h⟩ := bind_eq_ok h
    cases h
    obtain ⟨login, hlogin, rfl⟩ := releaseWdb_eq_ok hs₁
    exact .closed hargs hnode hclose hlogin

omit [Store σ] in
theorem destroyCb_open {name : Bytes} {rest : List Bytes} {node : Node δ}
    (hargs : cmd.args = name :: rest) (hallowed : name ∉ s.restrictedDbs)
    (hnode : s.dbt.lookup name = some node) (h : destroyCb cmd fd s = .ok (r, s')) :
    ∃ res db world login, Database.destroy node.db s.world = .ok (res, db, world) ∧
      s.logins.lookup fd = some login ∧ r = toRes res ∧
      s' = { s with
        dbt := s.dbt.insert name { node with db }, logins := released s fd login node.addr, world } := by
  rw [destroyCb, hargs] at h
  obtain ⟨_, hname, h⟩ := bind_eq_ok h
  cases hname
  rw [if_neg hallowed, hnode] at h
  obtain ⟨s₁, hs₁, h⟩ := bind_eq_ok h
  obtain ⟨⟨res, db, world⟩, hdestroy, h⟩ := bind_eq_ok h
  cases h
  obtain ⟨login, hlogin, rfl⟩ := releaseWdb_eq_ok hs₁
  exact ⟨res, db, world, login, hdestroy, hlogin, rfl, rfl⟩

theorem destroyCb_effect (h : destroyCb cmd fd s = .ok (r, s')) :
    Effect s cmd fd .destroyCb r s' := by
  have hcall := h
  obtain ⟨name, hargs, h⟩ := bind_eq_ok h
  obtain ⟨rest, hargs⟩ := front_eq_ok hargs
  split at h
  · cases h
    exact .refused (interErr_not_ok _)
  case isFalse hallowed =>
  split at h
  case h_1 hnew =>
    obtain ⟨⟨res, world⟩, hdestroy, h⟩ := bind_eq_ok h
    cases h
    exact .unlinked hargs hallowed hnew hdestroy
  case h_2 node hnode =>
    obtain ⟨res, db, world, login, hdestroy, hlogin, rfl, rfl⟩ :=
      destroyCb_open hargs hallowed hnode hcall
    exact .destroyed hargs hallowed hnode hdestroy hlogin

theorem closeAllCb_effect (h : closeAllCb cmd fd s = .ok (r, s')) :
    Effect s cmd fd .closeAllCb r s' := by
  obtain ⟨world, hclose, h⟩ := bind_eq_ok h
  obtain ⟨s₁, hs₁, h⟩ := bind_eq_ok h
  cases h
  obtain ⟨login, hlogin, rfl⟩ := setWdb_eq_ok hs₁
  exact .closedAll hclose hlogin

omit [Store σ] in
theorem destroyAllCb_cases (h : destroyAllCb cmd fd s = .ok (r, s')) :
    ∃ res dbt world, destroyEach s.dbt.entries s.dbt s.world = .ok (res, dbt, world) ∧
      ((res.ok ∧ r = output [] ∧ ∃ login, s.logins.lookup fd = some login ∧
          s' = { s with
            dbt := ∅, logins := s.logins.insert fd { login with wdb := none }, world }) ∨
        ¬ res.ok ∧ r = toRes res ∧ s' = { s with dbt, world }) := by
  obtain ⟨⟨res, dbt, world⟩, hdestroy, h⟩ := bind_eq_ok h
  refine ⟨res, dbt, world, hdestroy, ?_⟩
  dsimp only at h
  split at h
  case isTrue hok =>
    obtain ⟨s₁, hs₁, h⟩ := bind_eq_ok h
    cases h
    obtain ⟨login, hlogin, rfl⟩ := setWdb_eq_ok hs₁
    exact .inl ⟨hok, rfl, login, hlogin, rfl⟩
  case isFalse hfail =>
    cases h
    exact .inr ⟨hfail, rfl, rfl⟩

theorem destroyAllCb_effect (h : destroyAllCb cmd fd s = .ok (r, s')) :
    Effect s cmd fd .destroyAllCb r s' := by
  obtain ⟨res, dbt, world, hdestroy, ⟨hok, rfl, login, hlogin, rfl⟩ | ⟨hfail, rfl, rfl⟩⟩ :=
    destroyAllCb_cases h
  · exact .destroyedAll hdestroy hok hlogin
  · exact .destroyedSome hdestroy hfail

theorem workingDbCb_effect (h : workingDbCb cmd fd s = .ok (r, s')) :
    Effect s cmd fd .workingDbCb r s' := by
  obtain ⟨_, _, h⟩ := bind_eq_ok h
  cases h
  exact .answered (by decide)

omit [Database δ ω] in
theorem appendRoles_eq_ok {roles : σ} {buff buff' : Bytes} {names : List Bytes}
    (h : appendRoles roles buff names = .ok buff') : buff' = buff ++ names.flatMap field ∧
      ∀ name ∈ names, name.length ≤ 255 ∧ Store.contains roles name := by
  induction names generalizing buff with
  | nil =>
    cases h
    exact ⟨(List.append_nil _).symm, by simp⟩
  | cons name names ih =>
    rw [appendRoles] at h
    split at h
    · cases h
    · rename_i hlen
      split at h
      · rename_i hcontains
        obtain ⟨rfl, hnames⟩ := ih h
        refine ⟨List.append_assoc _ _ _, List.forall_mem_cons.mpr ⟨⟨by omega, hcontains⟩, hnames⟩⟩
      · cases h

omit [Database δ ω] in
theorem addRoles_eq_some {roles : σ} {data data' : Bytes} {names : List Bytes}
    (h : addRoles roles data names = some data') : data' = data ++ names.flatMap field ∧
      ∀ name ∈ names, Store.contains roles name := by
  induction names generalizing data with
  | nil =>
    cases h
    exact ⟨(List.append_nil _).symm, by simp⟩
  | cons name names ih =>
    rw [addRoles] at h
    split at h
    · rename_i hcontains
      obtain ⟨rfl, hnames⟩ := ih h
      exact ⟨List.append_assoc _ _ _, List.forall_mem_cons.mpr ⟨hcontains, hnames⟩⟩
    · cases h

omit [Database δ ω] in
theorem appendRoles_not_ok {roles : σ} {buff : Bytes} {names : List Bytes} {res : Result}
    (h : appendRoles roles buff names = .error res) : ¬ res.ok := by
  induction names generalizing buff with
  | nil => cases h
  | cons name names ih =>
    rw [appendRoles] at h
    split at h
    · cases h
      exact interErr_not_ok _
    split at h
    · exact ih h
    · cases h
      exact interErr_not_ok _

theorem createUserCb_effect (h : createUserCb cmd fd s = .ok (r, s')) :
    Effect s cmd fd .createUserCb r s' := by
  rw [createUserCb] at h
  split at h
  case h_2 => cases h
  case h_1 username password rest hargs =>
    split at h
    · cases h
      exact .refused (interErr_not_ok _)
    case isFalse hlength =>
    have hpassword := Nat.not_lt.mp hlength
    split at h
    case isTrue hsize =>
      obtain ⟨⟨res, users⟩, hset, h⟩ := bind_eq_ok h
      cases h
      exact .createdFirst hargs hpassword hsize hset
    case isFalse hsize =>
      split at h
      case h_1 res happend =>
        cases h
        exact .refused (appendRoles_not_ok happend)
      case h_2 buff happend =>
        obtain ⟨⟨res, users⟩, hset, h⟩ := bind_eq_ok h
        cases h
        obtain ⟨rfl, _⟩ := appendRoles_eq_ok happend
        exact .createdUser hargs hpassword hsize happend hset

theorem createRoleCb_effect [Machine] (h : createRoleCb cmd fd s = .ok (r, s')) :
    Effect s cmd fd .createRoleCb r s' := by
  rw [createRoleCb] at h
  split at h
  case h_2 => cases h
  split at h
  · cases h
    exact .refused (interErr_not_ok _)
  split at h
  · cases h
    exact .refused (interErr_not_ok _)
  · obtain ⟨⟨res, roles⟩, _, h⟩ := bind_eq_ok h
    cases h
    exact .roles (by decide)

theorem deleteRoleCb_effect (h : deleteRoleCb cmd fd s = .ok (r, s')) :
    Effect s cmd fd .deleteRoleCb r s' := by
  obtain ⟨name, _, h⟩ := bind_eq_ok h
  obtain ⟨⟨res, roles⟩, _, h⟩ := bind_eq_ok h
  dsimp only at h
  split at h <;> cases h <;> exact .roles (by decide)

theorem deleteUserCb_effect (h : deleteUserCb cmd fd s = .ok (r, s')) :
    Effect s cmd fd .deleteUserCb r s' := by
  obtain ⟨name, hargs, h⟩ := bind_eq_ok h
  obtain ⟨rest, hargs⟩ := front_eq_ok hargs
  obtain ⟨⟨res, users⟩, herase, h⟩ := bind_eq_ok h
  dsimp only at h
  split at h
  case isTrue hok =>
    cases h
    exact .deletedUser hargs herase (iff_of_true rfl hok)
  case isFalse hfail =>
    cases h
    exact .deletedUser hargs herase (iff_of_false (interErr_not_ok _) hfail)

theorem addRolesCb_effect (h : addRolesCb cmd fd s = .ok (r, s')) :
    Effect s cmd fd .addRolesCb r s' := by
  rw [addRolesCb] at h
  split at h
  case h_2 => cases h
  case h_1 username names hargs =>
    split at h
    · cases h
      exact .refused (interErr_not_ok _)
    case h_2 data hget =>
      split at h
      · cases h
        exact .refused (interErr_not_ok _)
      case h_2 data' hadd =>
        obtain ⟨⟨res, users⟩, hupdate, h⟩ := bind_eq_ok h
        cases h
        obtain ⟨rfl, _⟩ := addRoles_eq_some hadd
        exact .addedRoles hargs hget hadd hupdate

theorem removeRolesCb_effect (h : removeRolesCb cmd fd s = .ok (r, s')) :
    Effect s cmd fd .removeRolesCb r s' := by
  rw [removeRolesCb] at h
  split at h
  case h_2 => cases h
  case h_1 username names hargs =>
    split at h
    · cases h
      exact .refused (interErr_not_ok _)
    case h_2 data hget =>
      obtain ⟨⟨iter, buff⟩, hwalk, h⟩ := bind_eq_ok h
      obtain ⟨⟨res, users⟩, hupdate, h⟩ := bind_eq_ok h
      cases h
      exact .removedRoles hargs hget hwalk hupdate

theorem loginCb_effect (h : loginCb cmd fd s = .ok (r, s')) : Effect s cmd fd .loginCb r s' := by
  rw [loginCb] at h
  split at h
  · cases h
    exact .refused (interErr_not_ok _)
  case isFalse hnew =>
  split at h
  case h_2 => cases h
  case h_1 username password rest hargs =>
    split at h
    · cases h
      exact .refused (interErr_not_ok _)
    case h_2 data hget =>
      obtain ⟨userpass, hfield, h⟩ := bind_eq_ok h
      split at h
      · cases h
        exact .refused (interErr_not_ok _)
      case isFalse hsame =>
        cases h
        exact .loggedIn hargs hnew hget (Decidable.not_not.mp hsame ▸ hfield)

theorem showRolesCb_effect [Machine] (h : showRolesCb cmd fd s = .ok (r, s')) :
    Effect s cmd fd .showRolesCb r s' := by
  obtain ⟨out, _, h⟩ := bind_eq_ok h
  cases h
  exact .answered (by decide)

theorem userRolesCb_effect [Machine] (h : userRolesCb cmd fd s = .ok (r, s')) :
    Effect s cmd fd .userRolesCb r s' := by
  obtain ⟨username, _, h⟩ := bind_eq_ok h
  split at h
  · cases h
    exact .refused (interErr_not_ok _)
  · obtain ⟨out, _, h⟩ := bind_eq_ok h
    cases h
    exact .answered (by decide)

theorem callFn_effect [Machine] {fn : CmdFN} (h : callFn fn cmd fd s = .ok (r, s')) :
    Effect s cmd fd fn r s' := by
  cases fn with
  | null => cases h
  | openCb => exact openCb_effect h
  | closeCb => exact closeCb_effect h
  | switchCb => exact switchCb_effect h
  | cacheModeCb => exact cacheModeCb_effect h
  | setCb => exact updateSetImpl_effect (by decide) (.set _ _ _) h
  | getCb => exact getCb_effect h
  | closeAllCb => exact closeAllCb_effect h
  | destroyCb => exact destroyCb_effect h
  | destroyAllCb => exact destroyAllCb_effect h
  | updateCb => exact updateSetImpl_effect (by decide) (.update _ _ _) h
  | eraseCb => exact eraseCb_effect h
  | createUserCb => exact createUserCb_effect h
  | createRoleCb => exact createRoleCb_effect h
  | loginCb => exact loginCb_effect h
  | addRolesCb => exact addRolesCb_effect h
  | removeRolesCb => exact removeRolesCb_effect h
  | logoutCb =>
    cases h
    exact .loggedOut
  | deleteUserCb => exact deleteUserCb_effect h
  | deleteRoleCb => exact deleteRoleCb_effect h
  | showRolesCb => exact showRolesCb_effect h
  | userRolesCb => exact userRolesCb_effect h
  | workingDbCb => exact workingDbCb_effect h
  | activeUsersCb =>
    cases h
    exact .answered (by decide)
  | cmdsCb | listOpenCb | showUsersCb =>
    obtain ⟨out, _, h⟩ := bind_eq_ok h
    cases h
    exact .answered (by decide)

namespace Interpreter

structure Passes [Machine] (s : Interpreter σ δ ω) (cmd : Cmd) (fd : Int) (ch : CmdHandle) :
    Prop where
  lookup : s.ct.lookup cmd.cmd = some ch
  arity : ch.arity = -1 ∨ (ch.arity % 2 ^ 64).toNat ≤ cmd.args.length
  wdb : ¬ (ch.expectWdb ∧ s.getWdb fd = some none)
  perms : s.calculatePerms fd ch.perms = .ok true

instance Passes.decidable [Machine] (s : Interpreter σ δ ω) (cmd : Cmd) (fd : Int) (ch : CmdHandle) :
    Decidable (s.Passes cmd fd ch) :=
  decidable_of_iff (s.ct.lookup cmd.cmd = some ch ∧
      (ch.arity = -1 ∨ (ch.arity % 2 ^ 64).toNat ≤ cmd.args.length) ∧
      ¬ (ch.expectWdb ∧ s.getWdb fd = some none) ∧ s.calculatePerms fd ch.perms = .ok true)
    ⟨fun h => ⟨h.1, h.2.1, h.2.2.1, h.2.2.2⟩, fun h => ⟨h.lookup, h.arity, h.wdb, h.perms⟩⟩

omit [Database δ ω] in
theorem Passes.le_args [Machine] {ch : CmdHandle} (h : s.Passes cmd fd ch) {n : Nat}
    (harity : ch.arity = n) (hn : n < 2 ^ 64) : n ≤ cmd.args.length := by
  have hle := h.arity
  rw [harity] at hle
  omega

omit [Database δ ω] in
theorem interpret_cases [Machine] {call : CmdFN → Handler σ δ ω}
    (h : s.interpret call cmd fd = .ok (r, s')) :
    (¬ r.ok ∧ s' = s) ∨ ∃ ch, s.Passes cmd fd ch ∧ call ch.fn cmd fd s = .ok (r, s') := by
  rw [interpret] at h
  split at h
  · cases h
    exact .inl ⟨interErr_not_ok _, rfl⟩
  case h_2 ch hlookup =>
  split at h
  · cases h
    exact .inl ⟨interErr_not_ok _, rfl⟩
  case isFalse harity =>
  split at h
  · cases h
    exact .inl ⟨interErr_not_ok _, rfl⟩
  case isFalse hwdb =>
  obtain ⟨b, hperms, h⟩ := bind_eq_ok h
  cases b with
  | false =>
    cases h
    exact .inl ⟨interErr_not_ok _, rfl⟩
  | true =>
    refine .inr ⟨ch, ⟨hlookup, ?_, hwdb, hperms⟩, h⟩
    omega

omit [Database δ ω] in
/-- A command that does not return fails in the check of its flags or in its handler. -/
theorem interpret_error [Machine] {call : CmdFN → Handler σ δ ω} {e : Fault}
    (h : s.interpret call cmd fd = .error e) :
    (∃ ch : CmdHandle, s.calculatePerms fd ch.perms = .error e) ∨
      ∃ ch, s.Passes cmd fd ch ∧ call ch.fn cmd fd s = .error e := by
  rw [interpret] at h
  split at h
  · cases h
  case h_2 ch hlookup =>
  split at h
  · cases h
  case isFalse harity =>
  split at h
  · cases h
  case isFalse hwdb =>
  cases hperms : s.calculatePerms fd ch.perms with
  | error e' =>
    rw [hperms] at h
    cases h
    exact .inl ⟨ch, hperms⟩
  | ok b =>
    rw [hperms] at h
    cases b with
    | false => cases h
    | true => exact .inr ⟨ch, ⟨hlookup, by omega, hwdb, hperms⟩, h⟩

omit [Database δ ω] in
theorem interpret_of_passes [Machine] {call : CmdFN → Handler σ δ ω} {ch : CmdHandle}
    (h : s.Passes cmd fd ch) : s.interpret call cmd fd = call ch.fn cmd fd s := by
  rw [interpret, h.lookup]
  have harity : ¬ (ch.arity ≠ -1 ∧ cmd.args.length < (ch.arity % 2 ^ 64).toNat) := by
    obtain harity | harity := h.arity
    · exact fun hne => hne.1 harity
    · exact fun hlt => Nat.not_lt.mpr harity hlt.2
  simp only [if_neg harity, if_neg h.wdb, h.perms]
  rfl

theorem handle_cases [Machine] {e : Event} (h : s.handle e = .ok (r, s')) :
    (∃ fd cmd, e = .command fd cmd ∧ ((¬ r.ok ∧ s' = s) ∨
      ∃ ch, s.Passes cmd fd ch ∧ Effect s cmd fd ch.fn r s')) ∨
    ∃ fd, e = .hangup fd ∧ s' = { s with logins := s.logins.erase fd } := by
  cases e with
  | command fd cmd =>
    obtain hrefused | ⟨ch, hpasses, hcall⟩ := interpret_cases h
    · exact .inl ⟨fd, cmd, rfl, .inl hrefused⟩
    · exact .inl ⟨fd, cmd, rfl, .inr ⟨ch, hpasses, callFn_effect hcall⟩⟩
  | hangup fd =>
    cases h
    exact .inr ⟨fd, rfl, rfl⟩

end Interpreter

section
variable {s s' : Interpreter σ δ ω} {cmd : Cmd} {fd : Int} {r : Result}

omit [Store σ] [Database δ ω] in
theorem mem_insert_login {fd other : Int} {login login' : Login}
    (hlogin : s.logins.lookup fd = some login) (h : other ∈ s.logins.insert fd login') :
    other ∈ s.logins := by
  obtain rfl | h := (AList.mem_insert _).mp h
  · exact AList.lookup_isSome.mp (Option.isSome_of_eq_some hlogin)
  · exact h

omit [Store σ] [Database δ ω] in
theorem mem_released {fd other : Int} {login : Login} {addr : Address}
    (hlogin : s.logins.lookup fd = some login) (h : other ∈ released s fd login addr) :
    other ∈ s.logins := by
  rw [released] at h
  split at h
  · exact mem_insert_login hlogin h
  · exact h

/-- A command logs nobody in but the session that gives it. -/
theorem Effect.mem_logins {fn : CmdFN} (heffect : Effect s cmd fd fn r s') {other : Int}
    (h : other ∈ s'.logins) : other ∈ s.logins ∨ other = fd := by
  cases heffect with
  | refused | answered | onWdb | unlinked | destroyedSome | roles | createdFirst | createdUser
  | addedRoles | removedRoles | deletedUser => exact .inl h
  | opened _ _ _ _ _ hl => exact .inl (mem_insert_login hl h)
  | switched _ _ _ hl => exact .inl (mem_insert_login hl h)
  | closedAll _ hl => exact .inl (mem_insert_login hl h)
  | destroyedAll _ _ hl => exact .inl (mem_insert_login hl h)
  | closed _ _ _ hl => exact .inl (mem_released hl h)
  | destroyed _ _ _ _ hl => exact .inl (mem_released hl h)
  | loggedIn =>
    obtain h | h := (AList.mem_insert _).mp h
    · exact .inr h
    · exact .inl h
  | loggedOut => exact .inl (AList.mem_erase.mp h).2

theorem Interpreter.handle_logins [Machine] {e : Event} (h : s.handle e = .ok (r, s')) {fd : Int}
    (hfd : fd ∈ s'.logins) : fd ∈ s.logins ∨ ∃ cmd, e = .command fd cmd := by
  obtain ⟨other, cmd, rfl, ⟨_, rfl⟩ | ⟨ch, _, heffect⟩⟩ | ⟨other, rfl, rfl⟩ := Interpreter.handle_cases h
  · exact .inl hfd
  · obtain hold | rfl := heffect.mem_logins hfd
    · exact .inl hold
    · exact .inr ⟨cmd, rfl⟩
  · exact .inl (AList.mem_erase.mp hfd).2

end

end Ambry.Aci
