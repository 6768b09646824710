import Mathlib.Data.List.AList
import Ambry.Foundation.Scalar
import Ambry.Foundation.Multimap

/-!
# Shared data of the library

Strings are byte lists. `size_t` values that name a position are `UInt64`, as in
the source; lengths of strings are natural numbers, cut to 32 bits where the
source stores them in a `uint32_t`. An unordered map is an association list
without repeated keys, and only its lookups are ever compared.
-/

namespace Ambry

export Foundation (Bytes ByteOrder image ofImage)

class Machine where
  order : ByteOrder

@[reducible] def littleEndian : Machine := ⟨.little⟩

/-- `machine_endian`: 1 for little endian, 0 for big. -/
def machineEndian [Machine] : UInt8 :=
  match Machine.order with
  | .little => 1
  | .big => 0

theorem machineEndian_eq_iff [Machine] {o : ByteOrder} :
    machineEndian = @machineEndian ⟨o⟩ ↔ Machine.order = o := by
  simp only [machineEndian]
  cases Machine.order <;> cases o <;> decide

inductive ResultType
  | Ok | IoFailure | MalformedIdx | MalformedDat | KeyNotInserted | EraseFailure | KeyNotFound
  | ParseError | InterpretError
  deriving DecidableEq, Repr

structure BasicResult (T : Type) where
  type : ResultType := .Ok
  message : T
  deriving DecidableEq, Repr

def BasicResult.ok {T : Type} (r : BasicResult T) : Bool := r.type = .Ok

abbrev Result := BasicResult String

def Result.success : Result := { message := "" }

structure IndexData where
  offset : UInt64 := 0
  length : UInt32 := 0
  /-- the offset of the raw record in the .idx file -/
  idxOffset : UInt32 := 0
  deriving DecidableEq, Repr

structure FreeEntry where
  offset : UInt64
  freeListOffset : UInt32
  deriving DecidableEq, Repr

structure Options where
  enableCache : Bool := true
  deriving DecidableEq, Repr

instance linearOrderUInt32 : LinearOrder UInt32 where
  le_refl := UInt32.le_refl
  le_trans _ _ _ := UInt32.le_trans
  le_antisymm _ _ := UInt32.le_antisymm
  le_total := UInt32.le_total
  lt_iff_le_not_ge a b := by
    simp only [UInt32.lt_iff_toNat_lt, UInt32.le_iff_toNat_le]
    omega
  toDecidableLE := inferInstance

abbrev Index := AList (fun _ : Bytes => IndexData)

abbrev FreeList := Foundation.Multimap UInt32 FreeEntry

/-- The shared data. `stray` is not in the source: it records that `Cache::write_at`
has stored outside `data`, which is undefined behaviour. -/
structure DBContext where
  index : Index := ∅
  data : Bytes := []
  freeList : FreeList := .empty
  options : Options
  name : Bytes
  stray : Bool := false

/-- `std::string::npos`, the position that asks for an append. -/
def npos : UInt64 := 0xFFFFFFFFFFFFFFFF

end Ambry
