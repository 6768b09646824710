import Ambry.Lib.IoManager

/-!
# `lib/cache.cpp`

Stores of `write_at` outside the vector do not change its elements; the context
records that they happened.
-/

namespace Ambry.Cache

open Foundation

def writeBack (ctx : DBContext) (bytes : Bytes) : DBContext := { ctx with data := ctx.data ++ bytes }

/-- The stores `data[i] = bytes[j]` of `write_at`, from `i` on. -/
def store (data : Bytes) (i : Nat) : Bytes → Bytes
  | [] => data
  | b :: bs => store (data.set i b) (i + 1) bs

/-- Some index of the loop lies outside the vector. -/
def outside (data : Bytes) (offset : Nat) (bytes : Bytes) : Bool :=
  !bytes.isEmpty && data.length < offset + bytes.length

def writeAt (ctx : DBContext) (offset : Nat) (bytes : Bytes) : DBContext :=
  { ctx with
    data := store ctx.data offset bytes
    stray := ctx.stray || outside ctx.data offset bytes }

def write (ctx : DBContext) (bytes : Bytes) (offset : UInt64) (size : UInt32) : DBContext :=
  if offset = npos then writeBack ctx (bytes.take size.toNat)
  else writeAt ctx offset.toNat (bytes.take size.toNat)

section frame
variable (ctx : DBContext) (bytes : Bytes) (offset : UInt64) (size : UInt32)

@[simp] theorem write_name : (write ctx bytes offset size).name = ctx.name := by
  rw [write]
  split <;> rfl

@[simp] theorem write_index : (write ctx bytes offset size).index = ctx.index := by
  rw [write]
  split <;> rfl

@[simp] theorem write_freeList : (write ctx bytes offset size).freeList = ctx.freeList := by
  rw [write]
  split <;> rfl

@[simp] theorem write_options : (write ctx bytes offset size).options = ctx.options := by
  rw [write]
  split <;> rfl

/-- The cache functions read nothing but the vector. -/
theorem write_congr {c d : DBContext} (hdata : c.data = d.data) (hstray : c.stray = d.stray) :
    (write c bytes offset size).data = (write d bytes offset size).data ∧
      (write c bytes offset size).stray = (write d bytes offset size).stray := by
  rw [write, write]
  split
  · simp only [writeBack, hdata, hstray, and_self]
  · simp only [writeAt, hdata, hstray, and_self]

end frame

theorem store_length (data bs : Bytes) (i : Nat) : (store data i bs).length = data.length := by
  induction bs generalizing data i with
  | nil => rfl
  | cons b bs ih => rw [store, ih, List.length_set]

theorem getElem?_store (data bs : Bytes) (i j : Nat) : (store data i bs)[j]? =
    if i ≤ j ∧ j < i + bs.length ∧ j < data.length then bs[j - i]? else data[j]? := by
  induction bs generalizing data i with
  | nil => rw [store, if_neg (by simp; omega)]
  | cons b bs ih =>
    rw [store, ih, List.length_set, List.getElem?_set, List.length_cons]
    by_cases hj : i = j
    · subst hj
      rw [if_neg (by omega), if_pos rfl, Nat.sub_self, List.getElem?_cons_zero]
      split
      · rw [if_pos (by omega)]
      · rw [if_neg (by omega), List.getElem?_eq_none (by omega)]
    · rw [if_neg hj]
      by_cases hin : i + 1 ≤ j ∧ j < i + 1 + bs.length ∧ j < data.length
      · rw [if_pos hin, if_pos (by omega), show j - i = j - (i + 1) + 1 by omega,
          List.getElem?_cons_succ]
      · rw [if_neg hin, if_neg (by omega)]

theorem store_eq_splice {data bs : Bytes} {i : Nat} (h : i + bs.length ≤ data.length) :
    store data i bs = splice 0 data i bs := by
  apply List.ext_getElem?
  intro j
  rw [getElem?_store, getElem?_splice (by omega)]
  by_cases hj : i ≤ j ∧ j < i + bs.length
  · rw [if_pos hj, if_pos ⟨hj.1, hj.2, by omega⟩]
  · rw [if_neg hj, if_neg fun h => hj ⟨h.1, h.2.1⟩]

theorem outside_eq_false {data bs : Bytes} {i : Nat} :
    outside data i bs = false ↔ bs = [] ∨ i + bs.length ≤ data.length := by
  cases bs <;> simp [outside]

end Ambry.Cache
