import Ambry.Aci.Record
import Ambry.Shared.Fmt

/-!
# `aci/aci.cpp`: handlers

A handler gets the command, the session it came from and the interpreter. `ctx.wdb`
is a reference to the slot of the session: a session without a login has no
slot, and a slot may point to a node that is no longer there; using either is
undefined behaviour.
-/

namespace Ambry.Aci

open Foundation

variable {σ δ ω : Type} [Store σ] [Database δ ω]

abbrev Handler (σ δ ω : Type) :=
  Cmd → Int → Interpreter σ δ ω → Outcome (Result × Interpreter σ δ ω)

namespace Interpreter

def wdbSlot (s : Interpreter σ δ ω) (fd : Int) : Outcome (Option Address) :=
  match s.logins.lookup fd with
  | some login => .ok login.wdb
  | none => .error .undefined

def setWdb (s : Interpreter σ δ ω) (fd : Int) (wdb : Option Address) :
    Outcome (Interpreter σ δ ω) :=
  match s.logins.lookup fd with
  | some login => .ok { s with logins := s.logins.insert fd { login with wdb } }
  | none => .error .undefined

/-- `if (&iter->second == ctx.wdb) ctx.wdb = nullptr`. -/
def releaseWdb (s : Interpreter σ δ ω) (fd : Int) (addr : Address) :
    Outcome (Interpreter σ δ ω) := do
  let wdb ← s.wdbSlot fd
  if wdb = some addr then s.setWdb fd none else .ok s

def entryAt (s : Interpreter σ δ ω) (addr : Address) : Option (Σ _ : Bytes, Node δ) :=
  s.dbt.entries.find? fun e => e.2.addr = addr

/-- `*ctx.wdb`. -/
def derefWdb (s : Interpreter σ δ ω) (fd : Int) : Outcome (Σ _ : Bytes, Node δ) := do
  match ← s.wdbSlot fd with
  | none => .error .undefined
  | some addr =>
    match s.entryAt addr with
    | some entry => .ok entry
    | none => .error .undefined

/-- `ctx.wdb->m(...)`. -/
def onWdb {α : Type} (s : Interpreter σ δ ω) (fd : Int) (m : Method δ ω α) :
    Outcome (α × Interpreter σ δ ω) := do
  let ⟨name, node⟩ ← s.derefWdb fd
  let (result, db, world) ← m node.db s.world
  return (result, { s with dbt := s.dbt.insert name { node with db }, world })

/-- `ct[name].perms = perms`. -/
def setPerms (s : Interpreter σ δ ω) (name : Bytes) (perms : FlagT) : Interpreter σ δ ω :=
  { s with ct := s.ct.insert name { (s.ct.lookup name).getD {} with perms } }

end Interpreter

def front (args : List Bytes) : Outcome Bytes :=
  match args with
  | arg :: _ => .ok arg
  | [] => .error .argument

def updateSetImpl (m : Bytes → Bytes → Method δ ω Ambry.Result) : Handler σ δ ω
  | cmd, fd, s => do
    let key ← front cmd.args
    let (res, s) ← s.onWdb fd (m key cmd.args.tail.flatten)
    return (toRes res, s)

def openCb : Handler σ δ ω
  | cmd, fd, s => do
    let name ← front cmd.args
    if name ∈ s.restrictedDbs then
      return (interErr "the provided database is restricted", s)
    match s.dbt.lookup name with
    | some node =>
      let s ← s.setWdb fd (some node.addr)
      return (output [], s)
    | none =>
      let addr := Database.alloc δ s.world (s.dbt.entries.map fun e => e.2.addr)
      let s := { s with dbt := s.dbt.insert name ⟨addr, Database.new name⟩ }
      let s ← s.setWdb fd (some addr)
      let (res, s) ← s.onWdb fd Database.open
      return (toRes res, s)

def closeCb : Handler σ δ ω
  | cmd, fd, s => do
    let name ← front cmd.args
    match s.dbt.lookup name with
    | none => return (keyNotFnd, s)
    | some node =>
      let s ← s.releaseWdb fd node.addr
      let (_, _, world) ← Database.close node.db s.world
      return (output [], { s with dbt := s.dbt.erase name, world })

def switchCb : Handler σ δ ω
  | cmd, fd, s => do
    let name ← front cmd.args
    match s.dbt.lookup name with
    | none => return (keyNotFnd, s)
    | some node =>
      let s ← s.setWdb fd (some node.addr)
      return (output [], s)

def cacheModeCb : Handler σ δ ω
  | cmd, fd, s => do
    let arg ← front cmd.args
    if arg = str "on" then
      let (_, s) ← s.onWdb fd (Database.switchCache true)
      return (output [], s)
    else if arg = str "off" then
      let (_, s) ← s.onWdb fd (Database.switchCache false)
      return (output [], s)
    else
      return (interErr "exepcted on or off", s)

def setCb : Handler σ δ ω := updateSetImpl Database.set

def updateCb : Handler σ δ ω := updateSetImpl Database.update

def getCb : Handler σ δ ω
  | cmd, fd, s => do
    let key ← front cmd.args
    let ⟨_, node⟩ ← s.derefWdb fd
    let (opt, s) ← s.onWdb fd
      (if Database.isCached node.db then Database.getCached key else Database.get key)
    match opt with
    | none => return (⟨.KeyNotFound, str "key not found"⟩, s)
    | some value => return (output value, s)

def eraseCb : Handler σ δ ω
  | cmd, fd, s => do
    let key ← front cmd.args
    let (res, s) ← s.onWdb fd (Database.erase key)
    return (toRes res, s)

def closeEach (world : ω) (entries : List (Σ _ : Bytes, Node δ)) : Outcome ω :=
  entries.foldlM (fun world e => do
    let (_, _, world) ← Database.close e.2.db world
    return world) world

def closeAllCb : Handler σ δ ω
  | _, fd, s => do
    let world ← closeEach s.world s.dbt.entries
    let s ← s.setWdb fd none
    return (output [], { s with dbt := ∅, world })

def destroyCb : Handler σ δ ω
  | cmd, fd, s => do
    let name ← front cmd.args
    if name ∈ s.restrictedDbs then
      return (interErr "the provided database is restricted", s)
    match s.dbt.lookup name with
    | none =>
      let (res, world) ← Database.destroyFiles δ name s.world
      return (toRes res, { s with world })
    | some node =>
      let s ← s.releaseWdb fd node.addr
      let (res, db, world) ← Database.destroy node.db s.world
      return (toRes res, { s with dbt := s.dbt.insert name { node with db }, world })

/-- The loop of `destroy_all_cb`, up to the first failure. -/
def destroyEach : List (Σ _ : Bytes, Node δ) → DBTable δ → ω →
    Outcome (Ambry.Result × DBTable δ × ω)
  | [], dbt, world => .ok (.success, dbt, world)
  | ⟨name, node⟩ :: entries, dbt, world => do
    let (res, db, world) ← Database.destroy node.db world
    let dbt := dbt.insert name { node with db }
    if res.ok then destroyEach entries dbt world else return (res, dbt, world)

def destroyAllCb : Handler σ δ ω
  | _, fd, s => do
    let (res, dbt, world) ← destroyEach s.dbt.entries s.dbt s.world
    let s := { s with dbt, world }
    if res.ok then
      let s ← { s with dbt := ∅ }.setWdb fd none
      return (output [], s)
    else return (toRes res, s)

/-- `std::to_string`. -/
def decimal (n : Int) : Bytes := str (toString n)

/-- `output += fmt::format(...)`, where the format is a string literal. -/
def appendFormat (out : Bytes) (fmt : String) (a : List Bytes) : Outcome Bytes :=
  match Fmt.format (Fmt.literal (str fmt)) a with
  | some line => .ok (out ++ line)
  | none => .error .undefined

def cmdsCb : Handler σ δ ω
  | _, _, s => do
    let out ← s.ct.entries.foldlM (fun out ⟨cmd, ch⟩ =>
      let argCount := if ch.arity = -1 then str "..." else decimal ch.arity
      appendFormat out
        "- \x7b\x7d(\x7b\x7d):\n\tDescription: \x7b\x7d\n\tUsage: \x7b\x7d\x7b\x7d\n"
        [cmd, argCount, ch.description, cmd, ch.usage]) []
    return (output out, s)

def listOpenCb : Handler σ δ ω
  | _, _, s => do
    let out ← s.dbt.entries.foldlM (fun out e =>
      appendFormat out "\x7b\x7d - \x7b\x7d\n"
        [Database.name e.2.db, decimal (Database.size e.2.db)]) (str "name - size\n")
    return (output out, s)

def workingDbCb : Handler σ δ ω
  | _, fd, s => do
    let ⟨_, node⟩ ← s.derefWdb fd
    return (output (Database.name node.db), s)

def appendRoles (roles : σ) : Bytes → List Bytes → Except Result Bytes
  | buff, [] => .ok buff
  | buff, role :: rest =>
    if role.length > 255 then .error (interErr "role length must be less then 256 chars")
    else if Store.contains roles role then appendRoles roles (buff ++ field role) rest
    else .error (interErr "invalid rolename provided")

def createUserCb : Handler σ δ ω
  | cmd, _, s =>
    match cmd.args with
    | username :: password :: rest =>
      if password.length > 255 then
        .ok (interErr "password length must be less then 256 chars", s)
      else if Store.size s.users = 0 then do
        let s := s.setPerms (str "create_user") ADMIN
        let (res, users) ← Store.set s.users username (field password ++ field (str "admin"))
        return (toRes res, { s with users })
      else
        match appendRoles s.roles (field password) rest with
        | .error res => .ok (res, s)
        | .ok buff => do
          let (res, users) ← Store.set s.users username buff
          return (toRes res, { s with users })
    | _ => .error .argument

/-- The loop of `create_role_cb` over the flags. -/
def flagsNamed : FlagT → List Bytes → Option FlagT
  | f, [] => some f
  | f, name :: names => (permTable.lookup name).bind fun flag => flagsNamed (f.set flag) names

def createRoleCb [Machine] : Handler σ δ ω
  | cmd, _, s =>
    match cmd.args with
    | name :: flags =>
      if name.length > 256 then .ok (interErr "role length must be less then 256 chars", s)
      else
        match flagsNamed 0 flags with
        | none => .ok (interErr "invalid flag name provided", s)
        | some f => do
          let (res, roles) ← Store.set s.roles name (flagWord f)
          return (toRes res, { s with roles })
    | [] => .error .argument

def loginCb : Handler σ δ ω
  | cmd, fd, s =>
    if fd ∈ s.logins then .ok (interErr "you are already logged in to a user account", s)
    else
      match cmd.args with
      | username :: password :: _ =>
        match Store.get s.users username with
        | none => .ok (interErr "invalid username provided", s)
        | some data => do
          let userpass ← getField data 0
          if password ≠ userpass then return (interErr "password does not match", s)
          return (output [], { s with logins := s.logins.insert fd { name := username } })
      | _ => .error .argument

def addRoles (roles : σ) : Bytes → List Bytes → Option Bytes
  | data, [] => some data
  | data, role :: rest =>
    if Store.contains roles role then addRoles roles (data ++ field role) rest else none

def addRolesCb : Handler σ δ ω
  | cmd, _, s =>
    match cmd.args with
    | username :: names =>
      match Store.get s.users username with
      | none => .ok (interErr "invalid username provided", s)
      | some data =>
        match addRoles s.roles data names with
        | none => .ok (interErr "invalid role name provided", s)
        | some data => do
          let (res, users) ← Store.update s.users username data
          return (toRes res, { s with users })
    | [] => .error .argument

/-- The body of the loop of `remove_roles_cb`; the state is what `iter` has before it and the
buffer. -/
def removeRolesBody (names : List Bytes) (state : List Bytes × Bytes) (role : Bytes) :
    Outcome (List Bytes × Bytes) :=
  if role ∈ names then .ok state
  else
    match state with
    | (name :: iter, buff) => .ok (iter, buff ++ field name)
    | ([], _) => .error .argument

def removeRolesCb : Handler σ δ ω
  | cmd, _, s =>
    match cmd.args with
    | username :: names =>
      match Store.get s.users username with
      | none => .ok (interErr "invalid username provided", s)
      | some data => do
        let head := data.take (recordStart data)
        let (_, buff) ← walk data (removeRolesBody names) data.length head.length (names, head)
        let (res, users) ← Store.update s.users username buff
        return (toRes res, { s with users })
    | [] => .error .argument

def logoutCb : Handler σ δ ω
  | _, fd, s => .ok (output [], { s with logins := s.logins.erase fd })

def deleteUserCb : Handler σ δ ω
  | cmd, _, s => do
    let name ← front cmd.args
    let (res, users) ← Store.erase s.users name
    let s := { s with users }
    if res.ok then return (output [], s)
    else return (interErr "the provided user does not exist", s)

def deleteRoleCb : Handler σ δ ω
  | cmd, _, s => do
    let name ← front cmd.args
    let (res, roles) ← Store.erase s.roles name
    let s := { s with roles }
    if res.ok then return (output [], s)
    else return (interErr "the provided rolename does not exist", s)

def activeUsersCb : Handler σ δ ω
  | _, _, s => .ok (output (s.logins.entries.flatMap fun e => e.2.name ++ str "\n"), s)

section
variable [Machine]

def permString (flagRaw : Bytes) : Outcome Bytes := do
  let flag ← fromStr flagRaw
  return permTable.flatMap fun ⟨name, value⟩ => if flag.test value then name ++ str " " else []

def showRolesCb : Handler σ δ ω
  | _, _, s => do
    let out ← (Store.entries s.roles).foldlM (fun out ⟨role, value⟩ => do
      let perms ← permString value
      return out ++ role ++ str " " ++ perms ++ str "\n") []
    return (output out, s)

def userRolesBody (roles : σ) (out role : Bytes) : Outcome Bytes :=
  match Store.get roles role with
  | none => .ok out
  | some value => do
    let perms ← permString value
    return out ++ role ++ str " " ++ perms ++ str "\n"

def userRolesCb : Handler σ δ ω
  | cmd, _, s => do
    let username ← front cmd.args
    match Store.get s.users username with
    | none => return (interErr "invalid username provided", s)
    | some data =>
      let out ← walk data (userRolesBody s.roles) data.length (recordStart data) []
      return (output out, s)

def showUsersCb : Handler σ δ ω
  | _, _, s => do
    let out ← (Store.entries s.users).foldlM (fun out e =>
      appendFormat out "\x7b\x7d\n" [e.1]) []
    return (output out, s)

end

end Ambry.Aci
