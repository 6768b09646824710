import Ambry.Aci.Gate

/-!
# What a record is read as

`login_cb` reads the first field of a record, and three loops walk over the rest.
What such a loop visits does not depend on what it does with the names, so one
list of names tells what every reader makes of the bytes.
-/

namespace Ambry.Aci

open Foundation

/-- The names that a walk visits, from an offset. -/
def visitedFrom (data : Bytes) : (turns offset : Nat) → Outcome (List Bytes)
  | 0, _ => .ok []
  | turns + 1, offset =>
    if offset < data.length then do
      let role ← getField data offset
      let rest ← visitedFrom data turns (offset + (role.length + 1))
      return role :: rest
    else .ok []

def visited (data : Bytes) : Outcome (List Bytes) :=
  visitedFrom data data.length (recordStart data)

/-- Every reader finds this password, and visits these names in this order. -/
def Decodes (data password : Bytes) (roles : List Bytes) : Prop :=
  getField data 0 = .ok password ∧
    ∀ {α : Type} (body : α → Bytes → Outcome α) (a : α),
      walk data body data.length (recordStart data) a = roles.foldlM body a

theorem getField_length {data role : Bytes} {offset : Nat} (h : getField data offset = .ok role) :
    role.length < 256 ∧ offset + (role.length + 1) ≤ data.length + 1 := by
  rw [getField] at h
  split at h
  · cases h
  · rename_i len hlen
    dsimp only at h
    split at h
    · rename_i hview
      cases h
      have hlt := (List.getElem?_eq_some_iff.mp hlen).1
      have hbyte := len.toNat_lt
      rw [hview]
      rw [List.length_take, List.length_drop] at hview
      rw [List.length_append, List.length_singleton] at hlt hview
      omega
    · cases h

theorem getField_error {data : Bytes} {offset : Nat} {e : Fault}
    (h : getField data offset = .error e) : e = .undefined := by
  rw [getField] at h
  split at h
  · cases h
    rfl
  · dsimp only at h
    split at h <;> cases h
    rfl

section
variable {data : Bytes} {turns offset : Nat} {roles : List Bytes}

/-- The names are short, and with their length bytes they fit into the record and the zero byte
behind it. -/
theorem visitedFrom_length (h : visitedFrom data turns offset = .ok roles) :
    (∀ role ∈ roles, role.length < 256) ∧
      (roles ≠ [] → offset + (roles.flatMap field).length ≤ data.length + 1) := by
  induction turns generalizing offset roles with
  | zero =>
    cases h
    exact ⟨by simp, fun hne => absurd rfl hne⟩
  | succ turns ih =>
    rw [visitedFrom] at h
    split at h
    · obtain ⟨role, hrole, h⟩ := bind_eq_ok h
      obtain ⟨rest, hrest, h⟩ := bind_eq_ok h
      cases h
      obtain ⟨hlt, hle⟩ := getField_length hrole
      obtain ⟨hshort, hrest'⟩ := ih hrest
      refine ⟨List.forall_mem_cons.mpr ⟨hlt, hshort⟩, fun _ => ?_⟩
      rw [List.flatMap_cons, List.length_append, field, List.length_cons]
      cases rest with
      | nil =>
        rw [List.flatMap_nil, List.length_nil]
        omega
      | cons next rest =>
        have hnext := hrest' (List.cons_ne_nil next rest)
        omega
    · cases h
      exact ⟨by simp, fun hne => absurd rfl hne⟩

theorem walk_visited {α : Type} (h : visitedFrom data turns offset = .ok roles)
    (body : α → Bytes → Outcome α) (a : α) :
    walk data body turns offset a = roles.foldlM body a := by
  induction turns generalizing offset roles a with
  | zero =>
    cases h
    rfl
  | succ turns ih =>
    rw [visitedFrom] at h
    rw [walk]
    split at h
    case isTrue hlt =>
      obtain ⟨role, hrole, h⟩ := bind_eq_ok h
      obtain ⟨rest, hrest, h⟩ := bind_eq_ok h
      cases h
      rw [if_pos hlt, hrole, List.foldlM_cons]
      exact bind_congr fun a => ih hrest a
    case isFalse hlt =>
      cases h
      rw [if_neg hlt]
      rfl

/-- A walk that keeps the names in a list. -/
theorem walk_collect (data : Bytes) (turns offset : Nat) (names : List Bytes) :
    walk data (fun names role => .ok (names ++ [role])) turns offset names =
      (visitedFrom data turns offset).map (names ++ ·) := by
  induction turns generalizing offset names with
  | zero => rw [walk, visitedFrom, Except.map, List.append_nil]
  | succ turns ih =>
    rw [walk, visitedFrom]
    split
    · cases getField data offset with
      | error e => rfl
      | ok role =>
        simp only [bind, Except.bind, ih]
        cases visitedFrom data turns (offset + (role.length + 1)) with
        | error e => rfl
        | ok rest => simp [Except.map, pure, Except.pure]
    · rw [Except.map, List.append_nil]

end

theorem foldlM_collect (names roles : List Bytes) :
    roles.foldlM (fun names role => (.ok (names ++ [role]) : Outcome (List Bytes))) names =
      .ok (names ++ roles) := by
  induction roles generalizing names with
  | nil =>
    rw [List.append_nil]
    rfl
  | cons role roles ih =>
    rw [List.foldlM_cons]
    exact (ih (names ++ [role])).trans (by rw [List.append_assoc, List.singleton_append])

theorem visitedFrom_fields {roles : List Bytes} (hroles : ∀ role ∈ roles, role.length < 256)
    (pre : Bytes) (turns : Nat) (hturns : roles.length < turns) :
    visitedFrom (pre ++ roles.flatMap field) turns pre.length = .ok roles := by
  have hwalk : walk (pre ++ roles.flatMap field) (fun names role => .ok (names ++ [role])) turns
      pre.length [] = _ := walk_fields hroles pre turns [] hturns
  rw [walk_collect, foldlM_collect] at hwalk
  obtain ⟨names, hnames, hnil⟩ := map_eq_ok hwalk
  rw [List.nil_append, List.nil_append] at hnil
  rw [hnames, hnil]

theorem decodes_iff {data password : Bytes} {roles : List Bytes} :
    Decodes data password roles ↔ getField data 0 = .ok password ∧ visited data = .ok roles := by
  refine and_congr_right fun _ => ?_
  constructor
  · intro h
    have hcollect := (walk_collect data data.length (recordStart data) []).symm.trans (h _ [])
    rw [foldlM_collect, List.nil_append] at hcollect
    obtain ⟨names, hnames, rfl⟩ := map_eq_ok hcollect
    exact hnames
  · intro h α body a
    exact walk_visited h body a

instance decidableDecodes (data password : Bytes) (roles : List Bytes) :
    Decidable (Decodes data password roles) :=
  decidable_of_iff _ decodes_iff.symm

theorem Decodes.unique {data password password' : Bytes} {roles roles' : List Bytes}
    (h : Decodes data password roles) (h' : Decodes data password' roles') :
    password = password' ∧ roles = roles' := by
  obtain ⟨hpassword, hroles⟩ := decodes_iff.mp h
  obtain ⟨hpassword', hroles'⟩ := decodes_iff.mp h'
  exact ⟨Except.ok.inj (hpassword.symm.trans hpassword'), Except.ok.inj (hroles.symm.trans hroles')⟩

theorem UserRecord.decodes (r : UserRecord) : Decodes r.encode r.password r.roles := by
  have hlt := r.password_lt
  constructor
  · exact getField_field [] (r.roles.flatMap field) (by omega)
  · intro α body a
    exact r.walk_encode body a

theorem UserRecord.take_recordStart (r : UserRecord) :
    r.encode.take (recordStart r.encode) = field r.password := by
  rw [r.recordStart_encode, encode, List.take_left' rfl]

end Ambry.Aci
