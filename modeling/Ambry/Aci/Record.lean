import Ambry.Aci.Types

/-!
# `aci/aci.cpp`: records

A user record is the password and the names of the roles, each after a byte with
its length; the value of a role is its flag word. A string has a zero byte behind
it, which may be read; what is further behind may not.
-/

namespace Ambry.Aci

open Foundation

/-- `buff += (uint8_t)s.size(); buff += s`. -/
def field (s : Bytes) : Bytes := UInt8.ofNat s.length :: s

def getField (str : Bytes) (off : Nat) : Outcome Bytes :=
  match (str ++ [0])[off]? with
  | none => .error .undefined
  | some len =>
    let view := ((str ++ [0]).drop (off + 1)).take len.toNat
    if view.length = len.toNat then .ok view else .error .undefined

/-- `data[0]+1` as a `size_t`, where `char` is signed. -/
def recordStart (data : Bytes) : Nat := (((data.headD 0).toInt8.toInt + 1) % 2 ^ 64).toNat

/-- A length byte below 128 counts for itself, one above makes the position a huge one; 255 makes
it zero. -/
theorem recordStart_cons (b : UInt8) (rest : Bytes) : recordStart (b :: rest) =
    if b.toNat < 128 then b.toNat + 1 else if b.toNat = 255 then 0 else 2 ^ 64 + b.toNat - 255 := by
  have hb := b.toNat_lt
  have hnat : b.toBitVec.toNat = b.toNat := rfl
  show ((b.toBitVec.toInt + 1) % 2 ^ 64).toNat = _
  rw [BitVec.toInt_eq_toNat_cond, hnat]
  split
  · rw [if_pos (by omega)]
    omega
  · rw [if_neg (by omega)]
    split <;> omega

theorem recordStart_field {s : Bytes} (hs : s.length ≤ 255) (rest : Bytes) :
    recordStart (field s ++ rest) = if s.length < 128 then s.length + 1
      else if s.length = 255 then 0 else 2 ^ 64 + s.length - 255 := by
  have hnat : (UInt8.ofNat s.length).toNat = s.length :=
    UInt8.toNat_ofNat_of_lt (Nat.lt_succ_of_le hs)
  rw [field, List.cons_append, recordStart_cons, hnat]

/-- `while (offset < data.size())` over the fields of a record. Every field has a byte of its own,
so there are at most as many turns as bytes. -/
def walk {α : Type} (data : Bytes) (body : α → Bytes → Outcome α) :
    (turns offset : Nat) → α → Outcome α
  | 0, _, a => .ok a
  | turns + 1, offset, a =>
    if offset < data.length then do
      let role ← getField data offset
      let a ← body a role
      walk data body turns (offset + (role.length + 1)) a
    else .ok a

section
variable [Machine]

/-- The `unsigned long` of a flag set, as the bytes in the store. -/
def flagWord (f : FlagT) : Bytes := image Machine.order (UInt64.ofNat f.toNat)

/-- `from_str`; a shorter string is read behind its end. -/
def fromStr (str : Bytes) : Outcome FlagT :=
  if 8 ≤ str.length then
    .ok (BitVec.ofNat 15 (ofImage Machine.order (str.take 8) : UInt64).toNat)
  else .error .undefined

theorem fromStr_flagWord (f : FlagT) : fromStr (flagWord f) = .ok f := by
  have hlen : (flagWord f).length = 8 := image_length _ _
  have hlt := f.isLt
  have hword : (UInt64.ofNat f.toNat).toNat = f.toNat := by
    rw [UInt64.toNat_ofNat', Nat.mod_eq_of_lt (by omega)]
  rw [fromStr, if_pos hlen.ge, List.take_of_length_le hlen.le, flagWord, ofImage_image, hword,
    BitVec.ofNat_toNat, BitVec.setWidth_eq]

end

structure UserRecord where
  password : Bytes
  roles : List Bytes
  password_lt : password.length < 128
  role_lt : ∀ role ∈ roles, role.length < 256

def UserRecord.encode (r : UserRecord) : Bytes := field r.password ++ r.roles.flatMap field

theorem getField_field (pre rest : Bytes) {s : Bytes} (hs : s.length < 256) :
    getField (pre ++ (field s ++ rest)) pre.length = .ok s := by
  have hlen : (UInt8.ofNat s.length).toNat = s.length := by
    rw [UInt8.toNat_ofNat', Nat.mod_eq_of_lt hs]
  have hbyte : (pre ++ (field s ++ rest) ++ [0])[pre.length]? = some (UInt8.ofNat s.length) := by
    rw [List.append_assoc, List.getElem?_append_right le_rfl, Nat.sub_self, field]
    rfl
  have hview : ((pre ++ (field s ++ rest) ++ [0]).drop (pre.length + 1)).take s.length = s := by
    rw [List.append_assoc, ← List.drop_drop, List.drop_left, field, List.cons_append,
      List.cons_append, List.drop_succ_cons, List.drop_zero, List.append_assoc, List.take_left]
  rw [getField, hbyte]
  simp only [hlen, hview, if_true]

theorem walk_fields {α : Type} {body : α → Bytes → Outcome α} {roles : List Bytes}
    (hroles : ∀ role ∈ roles, role.length < 256) (pre : Bytes) (turns : Nat) (a : α)
    (hturns : roles.length < turns) :
    walk (pre ++ roles.flatMap field) body turns pre.length a = roles.foldlM body a := by
  induction roles generalizing pre turns a with
  | nil =>
    obtain ⟨turns, rfl⟩ := Nat.exists_eq_add_of_lt hturns
    simp [walk]
    rfl
  | cons role roles ih =>
    obtain ⟨turns, rfl⟩ : ∃ n, turns = n + 1 := ⟨turns - 1, by omega⟩
    have hnext : pre.length + (role.length + 1) = (pre ++ field role).length := by
      rw [List.length_append, field, List.length_cons]
    have hinside : pre.length < (pre ++ (role :: roles).flatMap field).length := by
      simp [field]
    have ih' := fun b => ih (fun r hr => hroles r (List.mem_cons_of_mem role hr)) (pre ++ field role)
      turns b (by rw [List.length_cons] at hturns; omega)
    rw [walk, if_pos hinside, List.flatMap_cons,
      getField_field _ _ (hroles role List.mem_cons_self), List.foldlM_cons]
    simp only [bind, Except.bind, hnext, ← List.append_assoc, ih']

/-- The bound on the turns never ends the loop. -/
theorem walk_turns {α : Type} (data : Bytes) (body : α → Bytes → Outcome α) (turns offset : Nat)
    (a : α) (hturns : data.length ≤ turns + offset) :
    walk data body (turns + 1) offset a = walk data body turns offset a := by
  induction turns generalizing offset a with
  | zero =>
    have hend : ¬ offset < data.length := by omega
    simp only [walk, if_neg hend]
  | succ turns ih =>
    rw [walk, walk.eq_2 data body offset a turns]
    split
    · refine bind_congr fun role => bind_congr fun a => ih _ a ?_
      omega
    · rfl

theorem walk_invariant {α : Type} {data : Bytes} {body : α → Bytes → Outcome α} {I : α → Prop}
    (hbody : ∀ a role a', I a → body a role = .ok a' → I a') {turns offset : Nat} {a a' : α}
    (h : walk data body turns offset a = .ok a') (ha : I a) : I a' := by
  induction turns generalizing offset a with
  | zero =>
    cases h
    exact ha
  | succ turns ih =>
    rw [walk] at h
    split at h
    · obtain ⟨role, _, h⟩ := bind_eq_ok h
      obtain ⟨b, hb, h⟩ := bind_eq_ok h
      exact ih h (hbody a role b ha hb)
    · cases h
      exact ha

end Ambry.Aci
