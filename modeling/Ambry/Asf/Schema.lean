import Mathlib.Data.List.AList
import Ambry.Asf.Deserialize
import Ambry.Foundation.Simulation

/-!
# `lib/asf.cpp`: reading under a schema

The schema is what a buffer is checked against and where the check notes which
fields it has come to, so a call changes it, also a call that fails. The loop is
written over any way to look up a key: the code looks it up in the schema and
sets the flag there, and `scan` only lists the keys and never looks at a flag.
-/

namespace Ambry.Asf

open Foundation

/-- `enum Type`. -/
inductive ValueType
  | i8 | u8 | i16 | u16 | i32 | u32 | i64 | u64 | double | stringT | arrayT | mapT | anyT
  deriving DecidableEq, Repr

def ValueType.byte : ValueType → UInt8
  | .i8 => 0
  | .u8 => 1
  | .i16 => 2
  | .u16 => 3
  | .i32 => 4
  | .u32 => 5
  | .i64 => 6
  | .u64 => 7
  | .double => 8
  | .stringT => 9
  | .arrayT => 10
  | .mapT => 11
  | .anyT => 12

structure SchemaOpts where
  allowUndefined : Bool

/-- `fn` takes the value by reference: it answers, and leaves a value in place. -/
structure SchemaField where
  type : ValueType := .anyT
  optional : Bool := false
  fn : Option (Value → Bool × Value) := none
  found : Bool := false

abbrev Struct := AList fun _ : Bytes => SchemaField

structure Schema where
  opts : SchemaOpts
  fields : Struct

section
variable [Machine] {σ : Type}

/-- The key at an offset, and the offset behind it. -/
def readKey (shouldReverse : Bool) (buff : Bytes) (offset : Nat) : Outcome (Bytes × Nat) := do
  let rest ← substr buff offset
  let keyLen ← readTo UInt16 rest shouldReverse
  let rest ← substr buff (offset + 2)
  return (rest.take keyLen.toNat, offset + (2 + keyLen.toNat))

omit [Machine] in
/-- What is done with an entry once its key is known to be that of `field`. -/
def readField (_deserialize : Bytes → Outcome (Value × Nat)) (buff : Bytes) (offset : Nat)
    (field : SchemaField) : Outcome (Value × Nat) := do
  let type ← byteAt buff offset
  if field.type ≠ .anyT ∧ type ≠ field.type.byte then throw .nullopt
  let rest ← substr buff offset
  let (value, size) ← _deserialize rest
  match field.fn with
  | none => return (value, size)
  | some fn => if (fn value).1 then return ((fn value).2, size) else throw .nullopt

/-- The loop of `deserialize_map`, `n` iterations before its end. -/
def deserializeFields (find : Bytes → Stateful Failure σ SchemaField)
    (_deserialize : Bytes → Outcome (Value × Nat)) (shouldReverse : Bool) (buff : Bytes) :
    (n i offset : Nat) → (out : Map) → Stateful Failure σ (Map × Nat)
  | 0, _, offset, out => return (out, offset)
  | n + 1, i, offset, out => do
    let (key, offset) ← (readKey shouldReverse buff offset : Outcome _)
    let field ← find key
    let (value, size) ← (readField _deserialize buff offset field : Outcome _)
    let i ← (increment i : Outcome _)
    deserializeFields find _deserialize shouldReverse buff n i (offset + (VALUE_HEADER_SIZE + size))
      (emplace out key value)

/-- What comes before the entries: whether to reverse, how many entries, and their bytes. -/
def readHeader (buff : Bytes) : Outcome (Bool × UInt32 × Bytes) := do
  deserializeCheck isSingle buff
  let endian ← byteAt buff 1
  let rest ← substr buff 2
  let len ← readTo UInt32 rest false
  let body ← substr buff 6
  return (endian ≠ machineEndian, len, body)

namespace Schema

omit [Machine] in
/-- `schema.fields.find` and `found = true`. Past the end of the fields that is a write
through the end iterator, which only the strict option keeps from happening. -/
def find (key : Bytes) : Stateful Failure Schema SchemaField := do
  let schema ← get
  match schema.fields.lookup key with
  | none => throw (if schema.opts.allowUndefined then .undefined else .nullopt)
  | some field =>
    let field := { field with found := true }
    set { schema with fields := schema.fields.insert key field }
    return field

omit [Machine] in
/-- The last loop of `deserialize_map`. -/
def complete (schema : Schema) : Bool :=
  schema.fields.entries.all fun e => e.2.optional || e.2.found

def deserializeMap (_deserialize : Bytes → Outcome (Value × Nat)) (buff : Bytes)
    (shouldReverse : Bool) (len : UInt32) : Stateful Failure Schema (Map × Nat) := do
  let result ← deserializeFields find _deserialize shouldReverse buff len.toNat 0 0 []
  let schema ← get
  if schema.complete then return result else throw .nullopt

def deserialize (buff : Bytes) : Stateful Failure Schema Map := do
  let (shouldReverse, len, body) ← (readHeader buff : Outcome _)
  let (map, _) ← deserializeMap (_deserialize shouldReverse (buff.length + 1)) body shouldReverse len
  return map

omit [Machine] in
/-- The lookup without the flags: the keys that were found are listed instead. -/
def note (schema : Schema) (key : Bytes) : Stateful Failure (List Bytes) SchemaField := do
  match schema.fields.lookup key with
  | none => throw (if schema.opts.allowUndefined then .undefined else .nullopt)
  | some field =>
    let keys ← get
    set (keys ++ [key])
    return { field with found := true }

def scanMap (schema : Schema) (buff : Bytes) : Stateful Failure (List Bytes) Map := do
  let (shouldReverse, len, body) ← (readHeader buff : Outcome _)
  let (map, _) ← deserializeFields schema.note (_deserialize shouldReverse (buff.length + 1))
    shouldReverse body len.toNat 0 0 []
  return map

/-- What the entries of a buffer come to under a schema, and the fields met on the way,
whatever the flags of the schema. -/
def scan (schema : Schema) (buff : Bytes) : Outcome Map × List Bytes :=
  (schema.scanMap buff).exec []

end Schema

end

end Ambry.Asf
