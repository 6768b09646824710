import Ambry.Asf.Serialize
import Ambry.Foundation.Fallible

/-!
# `lib/asf.cpp`: reading

A call ends with a result, with `nullopt`, with the exception of `substr`, or in
undefined behaviour: a byte outside the view, the end of a function without a
return, an overflow of the `int` that counts elements. Reading a length from
`buff.data() + 1` takes the four bytes that follow the type byte.
-/

namespace Ambry.Asf

open Foundation

inductive Failure
  | nullopt | outOfRange | undefined
  deriving DecidableEq, Repr

abbrev Outcome (α : Type) := Except Failure α

def VALUE_HEADER_SIZE : Nat := 5

def HEADER_SIZE : Nat := 2

def byteAt (buff : Bytes) (i : Nat) : Outcome UInt8 :=
  match buff[i]? with
  | some b => .ok b
  | none => .error .undefined

def substr (buff : Bytes) (pos : Nat) : Outcome Bytes :=
  if pos ≤ buff.length then .ok (buff.drop pos) else .error .outOfRange

section
variable [Machine]

def readTo (T : Type) [Scalar T] (buff : Bytes) (shouldReverse : Bool) : Outcome T :=
  let bytes := buff.take (Scalar.width T)
  if bytes.length = Scalar.width T then
    .ok (ofImage Machine.order (if shouldReverse then bytes.reverse else bytes))
  else .error .undefined

def readIntegral {T : Type} [Scalar T] (mk : T → Value) (buff : Bytes) (shouldReverse : Bool) :
    Outcome (Value × Nat) := do
  let n ← readTo T buff shouldReverse
  return (mk n, Scalar.width T)

omit [Machine] in
/-- `i++` on the `int` of the loops. -/
def increment (i : Nat) : Outcome Nat := if i + 1 < 2 ^ 31 then .ok (i + 1) else .error .undefined

omit [Machine] in
/-- The loop of `deserialize_array`, `n` iterations before its end. -/
def deserializeElems (_deserialize : Bytes → Outcome (Value × Nat)) (buff : Bytes) :
    (n i offset : Nat) → (out : List Value) → Outcome (List Value × Nat)
  | 0, _, offset, out => .ok (out, offset)
  | n + 1, i, offset, out => do
    let rest ← substr buff offset
    let (value, size) ← _deserialize rest
    let i ← increment i
    deserializeElems _deserialize buff n i (offset + (VALUE_HEADER_SIZE + size)) (out ++ [value])

omit [Machine] in
def deserializeArray (_deserialize : Bytes → Outcome (Value × Nat)) (buff : Bytes) (len : UInt32) :
    Outcome (List Value × Nat) :=
  deserializeElems _deserialize buff len.toNat 0 0 []

omit [Machine] in
def emplace (out : Map) (key : Bytes) (value : Value) : Map :=
  if key ∈ out.map Prod.fst then out else out ++ [(key, value)]

/-- The loop of `deserialize_map`, `n` iterations before its end. -/
def deserializeEntries (_deserialize : Bytes → Outcome (Value × Nat)) (shouldReverse : Bool)
    (buff : Bytes) : (n i offset : Nat) → (out : Map) → Outcome (Map × Nat)
  | 0, _, offset, out => .ok (out, offset)
  | n + 1, i, offset, out => do
    let rest ← substr buff offset
    let keyLen ← readTo UInt16 rest shouldReverse
    let rest ← substr buff (offset + 2)
    let key := rest.take keyLen.toNat
    let offset := offset + (2 + keyLen.toNat)
    let rest ← substr buff offset
    let (value, size) ← _deserialize rest
    let i ← increment i
    deserializeEntries _deserialize shouldReverse buff n i (offset + (VALUE_HEADER_SIZE + size))
      (emplace out key value)

def deserializeMap (_deserialize : Bytes → Outcome (Value × Nat)) (buff : Bytes)
    (shouldReverse : Bool) (len : UInt32) : Outcome (Map × Nat) :=
  deserializeEntries _deserialize shouldReverse buff len.toNat 0 0 []

def deserializeTyped (_deserialize : Bytes → Outcome (Value × Nat)) (shouldReverse : Bool)
    (type : UInt8) (len : UInt32) (buff : Bytes) : Outcome (Value × Nat) :=
  match type with
  | 0 => readIntegral .i8 buff shouldReverse
  | 1 => readIntegral .u8 buff shouldReverse
  | 2 => readIntegral .i16 buff shouldReverse
  | 3 => readIntegral .u16 buff shouldReverse
  | 4 => readIntegral .i32 buff shouldReverse
  | 5 => readIntegral .u32 buff shouldReverse
  | 6 => readIntegral .i64 buff shouldReverse
  | 7 => readIntegral .u64 buff shouldReverse
  | 8 => readIntegral .double buff shouldReverse
  | 9 => .ok (.string (buff.take len.toNat), len.toNat)
  | 10 => do
    let (elems, size) ← deserializeArray _deserialize buff len
    return (.array elems, size)
  | 11 => do
    let (entries, size) ← deserializeMap _deserialize buff shouldReverse len
    return (.map entries, size)
  | _ => .error .undefined

/-- `_deserialize`, with a bound on the depth of its recursion. -/
def _deserialize (shouldReverse : Bool) : (depth : Nat) → (buff : Bytes) → Outcome (Value × Nat)
  | 0, _ => .error .undefined
  | depth + 1, buff => do
    let type ← byteAt buff 0
    let len ← readTo UInt32 (buff.drop 1) false
    let buff ← substr buff VALUE_HEADER_SIZE
    deserializeTyped (_deserialize shouldReverse depth) shouldReverse type len buff

omit [Machine] in
def isSingle (buff : Bytes) : Bool := buff.head? = some 2

omit [Machine] in
def isMap (buff : Bytes) : Bool := buff.head? = some 1

omit [Machine] in
def deserializeCheck (type : Bytes → Bool) (buff : Bytes) : Outcome Unit :=
  if buff = [] ∨ buff.length ≤ HEADER_SIZE ∨ type buff then .error .nullopt else .ok ()

/-- Every level of nesting takes a header off the buffer, so its length bounds the depth. -/
def deserializeValue (buff : Bytes) : Outcome Value := do
  deserializeCheck isMap buff
  let endian ← byteAt buff 1
  let body ← substr buff 6
  let (value, _) ← _deserialize (endian ≠ machineEndian) (buff.length + 1) body
  return value

def deserialize (buff : Bytes) : Outcome Map := do
  deserializeCheck isSingle buff
  let endian ← byteAt buff 1
  let rest ← substr buff 2
  let len ← readTo UInt32 rest false
  let body ← substr buff 6
  let (map, _) ← deserializeMap (_deserialize (endian ≠ machineEndian) (buff.length + 1)) body
    (endian ≠ machineEndian) len
  return map

omit [Machine] in
theorem deserializeElems_prefix {dec : Bytes → Outcome (Value × Nat)} {buff : Bytes} :
    ∀ {n i offset : Nat} {out res : List Value} {size : Nat},
      deserializeElems dec buff n i offset out = .ok (res, size) → ∃ more, res = out ++ more := by
  intro n
  induction n with
  | zero =>
    intro i offset out res size h
    cases h
    exact ⟨[], (List.append_nil _).symm⟩
  | succ n ih =>
    intro i offset out res size h
    obtain ⟨rest, _, h⟩ := bind_eq_ok h
    obtain ⟨⟨value, size'⟩, _, h⟩ := bind_eq_ok h
    obtain ⟨j, _, h⟩ := bind_eq_ok h
    obtain ⟨more, rfl⟩ := ih h
    exact ⟨value :: more, by rw [List.append_assoc]; rfl⟩

omit [Machine] in
theorem emplace_prefix (out : Map) (key : Bytes) (value : Value) :
    ∃ more, emplace out key value = out ++ more := by
  rw [emplace]
  split
  · exact ⟨[], (List.append_nil _).symm⟩
  · exact ⟨[(key, value)], rfl⟩

theorem deserializeEntries_prefix {dec : Bytes → Outcome (Value × Nat)} {shouldReverse : Bool}
    {buff : Bytes} : ∀ {n i offset : Nat} {out res : Map} {size : Nat},
      deserializeEntries dec shouldReverse buff n i offset out = .ok (res, size) →
        ∃ more, res = out ++ more := by
  intro n
  induction n with
  | zero =>
    intro i offset out res size h
    cases h
    exact ⟨[], (List.append_nil _).symm⟩
  | succ n ih =>
    intro i offset out res size h
    obtain ⟨rest, _, h⟩ := bind_eq_ok h
    obtain ⟨keyLen, _, h⟩ := bind_eq_ok h
    obtain ⟨rest', _, h⟩ := bind_eq_ok h
    obtain ⟨rest'', _, h⟩ := bind_eq_ok h
    obtain ⟨⟨value, size'⟩, _, h⟩ := bind_eq_ok h
    obtain ⟨j, _, h⟩ := bind_eq_ok h
    obtain ⟨more, rfl⟩ := ih h
    obtain ⟨more', hmore⟩ := emplace_prefix out (rest'.take keyLen.toNat) value
    exact ⟨more' ++ more, by rw [hmore, List.append_assoc]⟩

end

end Ambry.Asf
