import Ambry.Aci.Handlers

/-!
# `aci/aci.cpp`: interpreter

The command table, the permission check and the execution of one command. The
server executes the commands of all sessions one after the other and drops the
login of a session that hangs up.
-/

namespace Ambry.Aci

open Foundation

variable {σ δ ω : Type} [Store σ] [Database δ ω]

/-- The table that `init_commands` fills, with the flags of `create_user`. -/
def commandTable (createUser : FlagT) : List (Bytes × CmdHandle) :=
  [(str "create_user",
    { arity := 2, description := str "creates a new user account"
      usage := str " <user name> <password> [role] ...", fn := .createUserCb, expectWdb := false
      perms := createUser }),
  (str "working_db",
    { description := str "returns the working db name", fn := .workingDbCb
      perms := setPerms [.INFO] }),
  (str "show_users",
    { description := str "returns a list of all users", fn := .showUsersCb, expectWdb := false
      perms := setPerms [.INFO] }),
  (str "user_roles",
    { arity := 1, description := str "show all the roles a user has", usage := str " <user name>"
      fn := .userRolesCb, expectWdb := false, perms := setPerms [.INFO] }),
  (str "active_users",
    { description := str "returns a list of active users", fn := .activeUsersCb
      expectWdb := false, perms := setPerms [.INFO] }),
  (str "show_roles",
    { description := str "returns a list of roles", fn := .showRolesCb, expectWdb := false
      perms := setPerms [.INFO] }),
  (str "delete_role",
    { arity := 1, description := str "deletes a role by its name", usage := str " <role name>"
      fn := .deleteRoleCb, expectWdb := false, perms := setPerms [.DELETE_ROLE] }),
  (str "create_role",
    { arity := 1, description := str "creates a new role with permissions"
      usage := str " <role name> <permission> ...", fn := .createRoleCb, expectWdb := false
      perms := setPerms [.CREATE_ROLE] }),
  (str "delete_user",
    { arity := 1, description := str "deletes a user", usage := str " <user name>"
      fn := .deleteUserCb, expectWdb := false, perms := setPerms [.DELETE_USER] }),
  (str "login",
    { arity := 2, description := str "login command", usage := str " <username> <password>"
      fn := .loginCb, expectWdb := false }),
  (str "logout",
    { description :=
        str "logs out the command sender or does nothing if the command sender is not logged in"
      fn := .logoutCb, expectWdb := false }),
  (str "add_roles",
    { arity := 2, description := str "adds any number of roles to a provided user"
      usage := str " <username> <role> ...", fn := .addRolesCb, expectWdb := false
      perms := setPerms [.ADD_ROLES] }),
  (str "remove_roles",
    { arity := 2, description := str "removes any number of roles to a provided user"
      usage := str " <username> <role> ...", fn := .removeRolesCb, expectWdb := false
      perms := setPerms [.REMOVE_ROLES] }),
  (str "open",
    { arity := 1, description := str "opens a database", usage := str " <db_name>", fn := .openCb
      expectWdb := false, perms := setPerms [.OPEN] }),
  (str "close",
    { arity := 1
      description :=
        str "closes a database or the working database if only one db is open"
      usage := str " <db_name>", fn := .closeCb, expectWdb := false, perms := setPerms [.CLOSE] }),
  (str "switch",
    { arity := 1
      description := str "switches the current database to one with the give arguments name"
      usage := str " <db_name>", fn := .switchCb, expectWdb := false }),
  (str "cache_mode",
    { arity := 1, description := str "turns the cache mode either on or off"
      usage := str " <on/off>", fn := .cacheModeCb, perms := setPerms [.CHANGE_OPT] }),
  (str "set",
    { arity := -1
      description := str ("sets a value to the working database. " ++
        "any additional values will be concatenated together")
      usage := str " <key> <value> <...>", fn := .setCb, perms := setPerms [.SET] }),
  (str "update",
    { arity := -1
      description := str ("updates a value to the working database. " ++
        "any additional values will be concatenated together")
      usage := str " <key> <value> <...>", fn := .updateCb, perms := setPerms [.UPDATE] }),
  (str "get",
    { arity := 1
      description := str "gets a value from the workind database from the given key"
      usage := str " <key>", fn := .getCb, perms := setPerms [.GET] }),
  (str "erase",
    { arity := 1
      description := str "erases a value from the workind database from the given key"
      usage := str " <key>", fn := .eraseCb, perms := setPerms [.ERASE] }),
  (str "close_all",
    { arity := 0, description := str "closes all open databases", fn := .closeAllCb
      perms := setPerms [.CLOSE] }),
  (str "destroy",
    { arity := 1
      description := str "destroys a database by its name (does not need to be open)"
      usage := str " <db_name>", fn := .destroyCb, expectWdb := false
      perms := setPerms [.DESTROY] }),
  (str "destroy_all",
    { arity := 0, description := str "destroys all open databases", fn := .destroyAllCb
      perms := setPerms [.DESTROY] }),
  (str "cmds",
    { arity := 0, description := str "displays all commands", fn := .cmdsCb, expectWdb := false
      perms := setPerms [.INFO] }),
  (str "list_open",
    { arity := 0, description := str "displays all open databases", fn := .listOpenCb
      expectWdb := false, perms := setPerms [.INFO] })]

namespace Interpreter

omit [Database δ ω] in
def initCommands (s : Interpreter σ δ ω) : Interpreter σ δ ω :=
  { s with
    ct := (commandTable (if Store.size s.users = 0 then 0 else Aci.setPerms [.CREATE_USER])).foldl
      (fun ct e => ct.insert e.1 e.2) s.ct }

section
variable [Machine]

omit [Database δ ω] in
/-- The constructor, on a table of open databases and the opened `users` and `roles`. -/
def new (dbt : DBTable δ) (users roles : σ) (world : ω) : Outcome (Interpreter σ δ ω) := do
  let (_, roles) ← Store.set roles (str "admin") (flagWord ADMIN)
  return { ct := ∅, dbt, users, roles, logins := ∅, world
           restrictedDbs := [str "__ACI_USERS__", str "__ACI_ROLES__"] }

/-- The loop of `calculate_perms` over `perm_table`, on `needed` and `satisfied`. -/
def satisfy (flag : FlagT) (state : FlagT × Nat) (entry : Bytes × FLAG) : FlagT × Nat :=
  if state.1.test entry.2 ∧ flag.test entry.2 then (state.1.flip entry.2, state.2 + 1) else state

/-- The body of the loop of `calculate_perms` over the roles. -/
def permsBody (roles : σ) (state : FlagT × Nat) (role : Bytes) : Outcome (FlagT × Nat) :=
  match Store.get roles role with
  | none => .ok state
  | some value => do
    let flag ← fromStr value
    return permTable.foldl (satisfy flag) state

omit [Database δ ω] in
def calculatePerms (s : Interpreter σ δ ω) (fd : Int) (needed : FlagT) : Outcome Bool :=
  if needed = 0 then .ok true
  else
    match s.logins.lookup fd with
    | none => .ok false
    | some login =>
      match Store.get s.users login.name with
      | none => .ok false
      | some data => do
        let (_, satisfied) ←
          walk data (permsBody s.roles) data.length (recordStart data) (needed, 0)
        return decide (needed.count ≤ satisfied)

omit [Store σ] [Database δ ω] [Machine] in
def getWdb (s : Interpreter σ δ ω) (fd : Int) : Option (Option Address) :=
  (s.logins.lookup fd).map Login.wdb

omit [Database δ ω] in
/-- `interpret`, for any meaning of the function pointers. The arity is compared as a `size_t`. -/
def interpret (call : CmdFN → Handler σ δ ω) (cmd : Cmd) (fd : Int) (s : Interpreter σ δ ω) :
    Outcome (Result × Interpreter σ δ ω) :=
  match s.ct.lookup cmd.cmd with
  | none => .ok (interErr "command does not exist", s)
  | some ch =>
    if ch.arity ≠ -1 ∧ cmd.args.length < (ch.arity % 2 ^ 64).toNat then
      .ok (interErr "Not enough arguments to command", s)
    else if ch.expectWdb ∧ s.getWdb fd = some none then
      .ok (interErr "expected an open database but none found", s)
    else do
      if ← s.calculatePerms fd ch.perms then call ch.fn cmd fd s
      else return (interErr "you do not meet the permissions to execute this command", s)

def callFn : CmdFN → Handler σ δ ω
  | .null => fun _ _ _ => .error .undefined
  | .openCb => openCb
  | .closeCb => closeCb
  | .switchCb => switchCb
  | .cacheModeCb => cacheModeCb
  | .setCb => setCb
  | .getCb => getCb
  | .closeAllCb => closeAllCb
  | .destroyCb => destroyCb
  | .destroyAllCb => destroyAllCb
  | .cmdsCb => cmdsCb
  | .updateCb => updateCb
  | .eraseCb => eraseCb
  | .listOpenCb => listOpenCb
  | .createUserCb => createUserCb
  | .createRoleCb => createRoleCb
  | .loginCb => loginCb
  | .addRolesCb => addRolesCb
  | .removeRolesCb => removeRolesCb
  | .logoutCb => logoutCb
  | .deleteUserCb => deleteUserCb
  | .deleteRoleCb => deleteRoleCb
  | .activeUsersCb => activeUsersCb
  | .showRolesCb => showRolesCb
  | .userRolesCb => userRolesCb
  | .showUsersCb => showUsersCb
  | .workingDbCb => workingDbCb

/-- What reaches the interpreter: a command, or the end of a connection. -/
inductive Event
  | command (fd : Int) (cmd : Cmd)
  | hangup (fd : Int)
  deriving DecidableEq, Repr

def handle (s : Interpreter σ δ ω) : Event → Outcome (Result × Interpreter σ δ ω)
  | .command fd cmd => s.interpret callFn cmd fd
  | .hangup fd => .ok (output [], { s with logins := s.logins.erase fd })

/-- One step of the server; there is none where the call does not return. -/
def next (s : Interpreter σ δ ω) (e : Event) : Option (Result × Interpreter σ δ ω) :=
  (s.handle e).toOption

end

end Interpreter

end Ambry.Aci
