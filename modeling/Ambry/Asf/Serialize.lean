import Ambry.Asf.Value

/-!
# `lib/asf.cpp`: writing

The size that `INTEGRAL_CASE` writes for an integer is an `int` literal; the one
it writes for a double has the type of `sizeof`, which is eight bytes wide.
-/

namespace Ambry.Asf

open Foundation

variable [Machine]

/-- `write_to`, as the bytes it adds to the buffer. -/
def writeTo {T : Type} [Scalar T] (n : T) : Bytes := image Machine.order n

/-- `INTEGRAL_CASE(t, s)` of `_serialize`. -/
def integralCase {S T : Type} [Scalar S] [Scalar T] (size : S) (n : T) : Bytes :=
  writeTo size ++ writeTo n

def serializeString (s : Bytes) : Bytes := writeTo (UInt32.ofNat s.length) ++ s

mutual

def _serialize : Value → Bytes
  | .i8 n => writeTo (0 : UInt8) ++ integralCase (1 : Int32) n
  | .u8 n => writeTo (1 : UInt8) ++ integralCase (1 : Int32) n
  | .i16 n => writeTo (2 : UInt8) ++ integralCase (2 : Int32) n
  | .u16 n => writeTo (3 : UInt8) ++ integralCase (2 : Int32) n
  | .i32 n => writeTo (4 : UInt8) ++ integralCase (4 : Int32) n
  | .u32 n => writeTo (5 : UInt8) ++ integralCase (4 : Int32) n
  | .i64 n => writeTo (6 : UInt8) ++ integralCase (8 : Int32) n
  | .u64 n => writeTo (7 : UInt8) ++ integralCase (8 : Int32) n
  | .double bits => writeTo (8 : UInt8) ++ integralCase (8 : UInt64) bits
  | .string s => writeTo (9 : UInt8) ++ serializeString s
  | .array elems => writeTo (10 : UInt8) ++
      (writeTo (UInt32.ofNat elems.length) ++ serializeElems elems)
  | .map entries => writeTo (11 : UInt8) ++
      (writeTo (UInt32.ofNat entries.length) ++ serializeEntries entries)

def serializeElems : List Value → Bytes
  | [] => []
  | v :: vs => _serialize v ++ serializeElems vs

def serializeEntries : Map → Bytes
  | [] => []
  | e :: es => serializeEntry e ++ serializeEntries es

def serializeEntry : Bytes × Value → Bytes
  | (key, value) => writeTo (UInt16.ofNat key.length) ++ key ++ _serialize value

end

def serializeArray (elems : List Value) : Bytes :=
  writeTo (UInt32.ofNat elems.length) ++ serializeElems elems

def serializeMap (entries : Map) : Bytes :=
  writeTo (UInt32.ofNat entries.length) ++ serializeEntries entries

theorem _serialize_array (elems : List Value) :
    _serialize (.array elems) = writeTo (10 : UInt8) ++ serializeArray elems := by
  rw [_serialize, serializeArray]

theorem _serialize_map (entries : Map) :
    _serialize (.map entries) = writeTo (11 : UInt8) ++ serializeMap entries := by
  rw [_serialize, serializeMap]

def serializeValue (value : Value) : Bytes := [2, machineEndian] ++ _serialize value

def serialize (map : Map) : Bytes := [1, machineEndian] ++ serializeMap map

@[simp] theorem writeTo_length {T : Type} [Scalar T] (n : T) :
    (writeTo n).length = Scalar.width T := image_length _ _

theorem length_serialize_string (s : Bytes) : (_serialize (.string s)).length = 5 + s.length := by
  rw [_serialize, serializeString, List.length_append, List.length_append, writeTo_length,
    writeTo_length, ← Nat.add_assoc]
  rfl

theorem length_serialize_array (vs : List Value) :
    (_serialize (.array vs)).length = 5 + (serializeElems vs).length := by
  rw [_serialize_array, serializeArray, List.length_append, List.length_append, writeTo_length,
    writeTo_length, ← Nat.add_assoc]
  rfl

theorem length_serialize_map (es : Map) :
    (_serialize (.map es)).length = 5 + (serializeEntries es).length := by
  rw [_serialize_map, serializeMap, List.length_append, List.length_append, writeTo_length,
    writeTo_length, ← Nat.add_assoc]
  rfl

theorem length_serializeEntry (e : Bytes × Value) :
    (serializeEntry e).length = 2 + e.1.length + (_serialize e.2).length := by
  rw [serializeEntry.eq_def, List.length_append, List.length_append, writeTo_length]
  rfl

theorem five_le_length (v : Value) : 5 ≤ (_serialize v).length := by
  cases v <;> simp [_serialize, integralCase, serializeString, Scalar.width] <;> omega

theorem serializeElems_append (vs ws : List Value) :
    serializeElems (vs ++ ws) = serializeElems vs ++ serializeElems ws := by
  induction vs with
  | nil => rfl
  | cons v vs ih => rw [List.cons_append, serializeElems, serializeElems, ih, List.append_assoc]

theorem serializeEntries_append (es fs : Map) :
    serializeEntries (es ++ fs) = serializeEntries es ++ serializeEntries fs := by
  induction es with
  | nil => rfl
  | cons e es ih => rw [List.cons_append, serializeEntries, serializeEntries, ih, List.append_assoc]

theorem length_serializeElems (vs : List Value) :
    (serializeElems vs).length = (vs.map fun v => (_serialize v).length).sum := by
  induction vs with
  | nil => rfl
  | cons v vs ih => rw [serializeElems, List.length_append, ih, List.map_cons, List.sum_cons]

theorem length_serializeEntries (es : Map) :
    (serializeEntries es).length = (es.map fun e => (serializeEntry e).length).sum := by
  induction es with
  | nil => rfl
  | cons e es ih => rw [serializeEntries, List.length_append, ih, List.map_cons, List.sum_cons]

theorem length_le_serializeElems {v : Value} {vs : List Value} (h : v ∈ vs) :
    (_serialize v).length ≤ (serializeElems vs).length := by
  induction vs with
  | nil => cases h
  | cons w vs ih =>
    rw [serializeElems, List.length_append]
    obtain rfl | h := List.mem_cons.mp h
    · exact Nat.le_add_right _ _
    · exact (ih h).trans (Nat.le_add_left _ _)

theorem length_le_serializeEntries {e : Bytes × Value} {es : Map} (h : e ∈ es) :
    (_serialize e.2).length ≤ (serializeEntries es).length := by
  induction es with
  | nil => cases h
  | cons d es ih =>
    rw [serializeEntries, List.length_append]
    obtain rfl | h := List.mem_cons.mp h
    · obtain ⟨key, value⟩ := e
      rw [serializeEntry, List.length_append]
      exact (Nat.le_add_left _ _).trans (Nat.le_add_right _ _)
    · exact (ih h).trans (Nat.le_add_left _ _)

end Ambry.Asf
