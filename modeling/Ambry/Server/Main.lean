import Ambry.Server.Flags
import Ambry.Shared.Fmt

/-!
# `server/main.cpp`: the options of the server

The byte of the log transports is not initialized; the flags only add to it.
-/

namespace Ambry

open Foundation Aci Flags

section
variable {ν : Type}

/-- `std::get<t>(parser.get(id).value()->data)`, with no result where one of the two throws. -/
def Flags.Parser.data (p : Parser ν) (id : Bytes) : Option (FlagData ν) := do
  let f ← p.get id
  return (← p.flags[f]?).data

variable [Double ν]

end

/-! ### What the command line says of an option -/

namespace Flags

/-- The text that is given for an option under one of its names. -/
def Item.textFor (names : List Bytes) : Item → Option Bytes
  | .inline id value => if id ∈ names then some value else none
  | .separate id _ value => if id ∈ names then some value else none
  | _ => none

def texts (names : List Bytes) (items : List Item) : List Bytes := items.filterMap (Item.textFor names)

def Item.switches (names : List Bytes) : Item → Bool
  | .toggle id _ => id ∈ names
  | _ => false

def switched (names : List Bytes) (items : List Item) : Bool := items.any (Item.switches names)

section
variable {ν : Type} [Double ν] {p : Parser ν} {sep : UInt8} {item : Item} {items : List Item}
  {names : List Bytes} {f : Nat} {flag : Flag ν} {id : Bytes}

variable (hvalid : ∀ item ∈ items, item.Valid p sep)
  (hnames : ∀ id, p.get id = some f ↔ id ∈ names) (hid : id ∈ names)
  (hflag : p.flags[f]? = some flag)
include hvalid hnames hid hflag

end

end Flags

/-! ### The command line of the server -/

variable {ν : Type} [Double ν]

end Ambry
