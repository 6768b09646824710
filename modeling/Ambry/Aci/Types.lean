import Ambry.Lib.Types
import Ambry.Foundation.Fallible
import Mathlib.Data.Fintype.Card

/-!
# `aci/aci.hpp`

The data of the command interpreter. A working database is known by the address
of its node in the table of open databases. The users and the roles are kept in
any store; the open databases are objects of any kind that act on the world
outside, and the results of their operations are not restricted.
-/

namespace Ambry.Aci

open Foundation

inductive FLAG
  | SET | GET | ERASE | UPDATE | CREATE_USER | DELETE_USER | CREATE_ROLE | DELETE_ROLE | ADD_ROLES
  | REMOVE_ROLES | OPEN | CLOSE | CHANGE_OPT | DESTROY | INFO
  deriving DecidableEq, Repr

instance FLAG.fintype : Fintype FLAG where
  elems := {SET, GET, ERASE, UPDATE, CREATE_USER, DELETE_USER, CREATE_ROLE, DELETE_ROLE, ADD_ROLES,
    REMOVE_ROLES, OPEN, CLOSE, CHANGE_OPT, DESTROY, INFO}
  complete p := by cases p <;> decide

def FLAG.bit : FLAG → Nat
  | .SET => 0
  | .GET => 1
  | .ERASE => 2
  | .UPDATE => 3
  | .CREATE_USER => 4
  | .DELETE_USER => 5
  | .CREATE_ROLE => 6
  | .DELETE_ROLE => 7
  | .ADD_ROLES => 8
  | .REMOVE_ROLES => 9
  | .OPEN => 10
  | .CLOSE => 11
  | .CHANGE_OPT => 12
  | .DESTROY => 13
  | .INFO => 14

theorem FLAG.bit_lt (p : FLAG) : p.bit < 15 := by cases p <;> decide

theorem FLAG.bit_inj {p q : FLAG} : p.bit = q.bit ↔ p = q := by
  revert p q
  decide

abbrev FlagT := BitVec 15

namespace FlagT

def test (f : FlagT) (p : FLAG) : Bool := f.getLsbD p.bit

def set (f : FlagT) (p : FLAG) : FlagT := f ||| BitVec.twoPow 15 p.bit

def flip (f : FlagT) (p : FLAG) : FlagT := f ^^^ BitVec.twoPow 15 p.bit

def count (f : FlagT) : Nat := (Finset.univ.filter fun p => f.test p).card

end FlagT

def setPerms (flags : List FLAG) : FlagT := flags.foldl FlagT.set 0

def ADMIN : FlagT := BitVec.allOnes 15

def str (s : String) : Bytes := s.toList.map fun c => UInt8.ofNat c.toNat

def permTable : List (Bytes × FLAG) :=
  [(str "SET", .SET), (str "GET", .GET), (str "ERASE", .ERASE), (str "UPDATE", .UPDATE),
    (str "CREATE_USER", .CREATE_USER), (str "DELETE_USER", .DELETE_USER),
    (str "CREATE_ROLE", .CREATE_ROLE), (str "ADD_ROLES", .ADD_ROLES),
    (str "REMOVE_ROLES", .REMOVE_ROLES), (str "OPEN", .OPEN), (str "CLOSE", .CLOSE),
    (str "CHANGE_OPT", .CHANGE_OPT), (str "DESTROY", .DESTROY), (str "INFO", .INFO)]

structure Cmd where
  cmd : Bytes
  args : List Bytes
  deriving DecidableEq, Repr

abbrev Result := BasicResult Bytes

def interErr (msg : String) : Result := ⟨.InterpretError, str msg⟩

def keyNotFnd : Result := interErr "there is no database by that name"

def toRes (v : Ambry.Result) : Result := ⟨v.type, str v.message⟩

/-- `{{}, output}`. -/
def output (message : Bytes) : Result := ⟨.Ok, message⟩

/-- How a call fails to return: with undefined behaviour, which is told apart where an element
behind the end of the argument list is used, or in a file call that cannot be complete. -/
inductive Fault
  | undefined | argument | stuck
  deriving DecidableEq, Repr

abbrev Outcome (α : Type) := Except Fault α

inductive CmdFN
  | null
  | openCb | closeCb | switchCb | cacheModeCb | setCb | getCb | closeAllCb | destroyCb
  | destroyAllCb | cmdsCb | updateCb | eraseCb | listOpenCb | createUserCb | createRoleCb | loginCb
  | addRolesCb | removeRolesCb | logoutCb | deleteUserCb | deleteRoleCb | activeUsersCb | showRolesCb
  | userRolesCb | showUsersCb | workingDbCb
  deriving DecidableEq, Repr

structure CmdHandle where
  arity : Int := 0
  description : Bytes := []
  usage : Bytes := []
  fn : CmdFN := .null
  expectWdb : Bool := true
  perms : FlagT := 0
  deriving DecidableEq, Repr

abbrev Address := Nat

structure Login where
  name : Bytes
  wdb : Option Address := none
  deriving DecidableEq, Repr

structure Node (δ : Type) where
  addr : Address
  db : δ

abbrev CmdTable := AList fun _ : Bytes => CmdHandle

abbrev DBTable (δ : Type) := AList fun _ : Bytes => Node δ

/-- The operations of `DB` that are used on `users` and `roles`. -/
class Store (σ : Type) where
  get : σ → Bytes → Option Bytes
  contains : σ → Bytes → Bool
  size : σ → Nat
  entries : σ → List (Bytes × Bytes)
  set : σ → Bytes → Bytes → Outcome (Ambry.Result × σ)
  update : σ → Bytes → Bytes → Outcome (Ambry.Result × σ)
  erase : σ → Bytes → Outcome (Ambry.Result × σ)

/-- A member function of a database object. -/
abbrev Method (δ ω α : Type) := δ → ω → Outcome (α × δ × ω)

/-- The operations of `DB` that are used on the open databases, `ambry::destroy`, and the address
of the next node, which is not that of a node in use. -/
class Database (δ : Type) (ω : outParam Type) where
  new : Bytes → δ
  name : δ → Bytes
  size : δ → Nat
  isCached : δ → Bool
  «open» : Method δ ω Ambry.Result
  close : Method δ ω Unit
  destroy : Method δ ω Ambry.Result
  switchCache : Bool → Method δ ω Unit
  get : Bytes → Method δ ω (Option Bytes)
  getCached : Bytes → Method δ ω (Option Bytes)
  set : Bytes → Bytes → Method δ ω Ambry.Result
  update : Bytes → Bytes → Method δ ω Ambry.Result
  erase : Bytes → Method δ ω Ambry.Result
  destroyFiles : Bytes → ω → Outcome (Ambry.Result × ω)
  alloc : ω → List Address → Address
  alloc_fresh : ∀ w used, alloc w used ∉ used

structure Interpreter (σ δ ω : Type) where
  ct : CmdTable
  dbt : DBTable δ
  users : σ
  roles : σ
  restrictedDbs : List Bytes
  logins : AList fun _ : Int => Login
  world : ω

end Ambry.Aci
