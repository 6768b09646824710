import Ambry.Lib.RW

/-!
# `lib/db.cpp`

A database with its files. Every operation returns the result of the source and
the next state; it has no value only where a file call cannot be complete.
`erase` hands the entry it has removed to `IoManager::erase`.
-/

namespace Ambry

open Foundation

structure DB where
  ctx : DBContext
  im : IoManager

namespace DB

variable [Machine]

omit [Machine] in
/-- `DB db(name, options)` for a name with the given files. -/
def onFiles (name : Bytes) (options : Options) (im : IoManager) : DB where
  ctx := { name, options }
  im := im

omit [Machine] in
/-- The same for a name without files: `open` creates them. -/
def new (name : Bytes) (options : Options) : DB := onFiles name options ⟨.empty, .empty, .empty⟩

def «open» (indet : UInt8) (db : DB) : Option (Result × DB) := do
  let (result, ctx, im) ← IoManager.loadStructures indet db.ctx db.im
  return (result, { ctx, im })

omit [Machine] in
def close (db : DB) : DB :=
  { db with ctx := { db.ctx with data := [], index := ∅, freeList := .empty } }

omit [Machine] in
/-- Bytes past the end of the vector are not part of it, so the view stops there. -/
def getCached (db : DB) (key : Bytes) : Option Bytes :=
  (db.ctx.index.lookup key).map fun data =>
    window db.ctx.data data.offset.toNat data.length.toNat

omit [Machine] in
def get (db : DB) (key : Bytes) : Option Bytes :=
  (db.ctx.index.lookup key).map fun data => db.im.readDat data.offset data.length

def set (db : DB) (key value : Bytes) : Option (Result × DB) :=
  match db.ctx.index.lookup key with
  | some _ => some (⟨.KeyNotInserted, "Could not insert key into index"⟩, db)
  | none => do
    let ctx := { db.ctx with index := db.ctx.index.insert key {} }
    let (offset, ctx, im) ← RW.write ctx db.im value
    let data : IndexData := { offset, length := UInt32.ofNat value.length }
    let (data, im) ← im.insert key data
    return (.success, { ctx := { ctx with index := ctx.index.insert key data }, im })

def erase (db : DB) (key : Bytes) : Option (Result × DB) :=
  match db.ctx.index.lookup key with
  | none => some (⟨.KeyNotFound, "key does not exist in index"⟩, db)
  | some data => do
    let ctx := { db.ctx with index := db.ctx.index.erase key }
    let (ctx, im) ← RW.free ctx db.im data.offset data.length
    let im ← im.erase data
    return (.success, { ctx, im })

def update (db : DB) (key value : Bytes) : Option (Result × DB) :=
  match db.ctx.index.lookup key with
  | none => some (⟨.KeyNotFound, "key does not exist in index"⟩, db)
  | some data => do
    let (offset, ctx, im) ← RW.update db.ctx db.im data.offset data.length value
    let data := { data with offset, length := UInt32.ofNat value.length }
    let im ← im.update key data
    return (.success, { ctx := { ctx with index := ctx.index.insert key data }, im })

omit [Machine] in
def size (db : DB) : Nat := db.ctx.index.entries.length

omit [Machine] in
def contains (db : DB) (key : Bytes) : Bool := key ∈ db.ctx.index

omit [Machine] in
def switchCache (db : DB) (on : Bool) : DB :=
  if on then
    let ctx := { db.ctx with options := { db.ctx.options with enableCache := true } }
    let (_, ctx, im) := IoManager.loadDat ctx db.im
    { ctx, im }
  else { db with ctx := { db.ctx with data := [] } }

omit [Machine] in
def name (db : DB) : Bytes := db.ctx.name

omit [Machine] in
def isCached (db : DB) : Bool := db.ctx.options.enableCache

inductive Op
  | set (key value : Bytes)
  | update (key value : Bytes)
  | erase (key : Bytes)
  deriving DecidableEq, Repr

def Op.key : Op → Bytes
  | .set key _ => key
  | .update key _ => key
  | .erase key => key

def apply (db : DB) : Op → Option (Result × DB)
  | .set key value => db.set key value
  | .update key value => db.update key value
  | .erase key => db.erase key

end DB

end Ambry
