import Ambry.Aci.Effects
import Ambry.Aci.RecordCodec
import Ambry.Foundation.Lookup

/-!
# Written and read records

Three commands write user records, and each of them can leave one that reads as
something else. `create_user` accepts passwords whose length byte is negative as
a `char`, so the walks begin elsewhere. `add_roles` cuts the length of a name to
a byte without a look at it. `remove_roles` writes the names that it was given in
place of those that are to stay.
-/

namespace Ambry.Aci

open Foundation

/-! ### `create_user` -/

theorem decodes_created {password : Bytes} {roles : List Bytes} (hlen : password.length ≤ 255)
    (hroles : ∀ role ∈ roles, role.length ≤ 255) :
    Decodes (field password ++ roles.flatMap field) password roles ↔
      password.length < 128 ∨ password.length < 255 ∧ roles = [] := by
  have hfield : getField (field password ++ roles.flatMap field) 0 = .ok password :=
    getField_field [] _ (by omega)
  have hlength : (field password).length = password.length + 1 := rfl
  by_cases hshort : password.length < 128
  · have hrole : ∀ role ∈ roles, role.length < 256 := fun role hr => by
      have := hroles role hr
      omega
    exact iff_of_true (UserRecord.decodes ⟨password, roles, hshort, hrole⟩) (.inl hshort)
  have hstart := recordStart_field hlen (roles.flatMap field)
  rw [if_neg hshort] at hstart
  rw [decodes_iff, visited]
  by_cases hmax : password.length = 255
  · -- The walk begins at the password.
    have hall : ∀ role ∈ password :: roles, role.length < 256 := by
      intro role hr
      obtain rfl | hr := List.mem_cons.mp hr
      · omega
      · have := hroles role hr
        omega
    have hvisited := visitedFrom_fields hall [] (field password ++ roles.flatMap field).length (by
      have hnames : 1 * roles.length ≤ (roles.flatMap field).length :=
        length_le_flatMap (fun s => Nat.le_add_left 1 s.length) roles
      rw [List.length_append, hlength, List.length_cons]
      omega)
    rw [hstart, if_pos hmax]
    refine iff_of_false ?_ (by omega)
    rintro ⟨_, hroles'⟩
    have heq := congrArg List.length (Except.ok.inj (hvisited.symm.trans hroles'))
    rw [List.length_cons] at heq
    omega
  · rw [hstart, if_neg hmax]
    constructor
    · rintro ⟨_, hvisited⟩
      refine .inr ⟨by omega, ?_⟩
      by_contra hne
      have hfits := (visitedFrom_length hvisited).2 hne
      rw [List.length_append, hlength] at hfits
      omega
    · rintro (hlt | ⟨_, rfl⟩)
      · exact absurd hlt hshort
      · refine ⟨hfield, ?_⟩
        rw [List.flatMap_nil, List.append_nil, hlength, visitedFrom, if_neg]
        omega

section
variable {δ ω : Type} {s s' : Interpreter Table δ ω} {cmd : Cmd} {fd : Int} {res : Result}
  {username password : Bytes} {names : List Bytes}

theorem Table.lookup_of_set {t t' : Table} {key value : Bytes} {r : Ambry.Result}
    (h : t.set key value = .ok (r, t')) (hr : r.ok) : t'.lookup key = some value := by
  rw [Table.set] at h
  split at h
  · cases h
    cases hr
  · cases h
    exact AList.lookup_insert t

/-- The record that `create_user` stores reads as what was stored exactly for short passwords,
and for users without a role a little longer ones. -/
theorem createUser_decodes (hargs : cmd.args = username :: password :: names)
    (h : createUserCb cmd fd s = .ok (res, s')) (hok : res.ok) :
    ∃ data, s'.users.lookup username = some data ∧
      (Decodes data password (if Store.size s.users = 0 then [str "admin"] else names) ↔
        password.length < 128 ∨ password.length < 255 ∧ Store.size s.users ≠ 0 ∧ names = []) := by
  simp only [createUserCb, hargs] at h
  split at h
  · cases h
    exact absurd hok (interErr_not_ok _)
  have hlen : password.length ≤ 255 := by omega
  split at h
  · rename_i hsize
    obtain ⟨⟨r, users⟩, hset, h⟩ := bind_eq_ok h
    cases h
    refine ⟨_, Table.lookup_of_set hset hok, ?_⟩
    have hadmin : ∀ role ∈ [str "admin"], role.length ≤ 255 := by decide
    have hdecodes := decodes_created hlen hadmin
    rw [List.flatMap_singleton] at hdecodes
    rw [if_pos hsize, hdecodes]
    simp [hsize]
  · rename_i hsize
    split at h
    · rename_i hrefused
      cases h
      exact absurd hok (appendRoles_not_ok hrefused)
    · rename_i buff happend
      obtain ⟨rfl, hnames⟩ := appendRoles_eq_ok happend
      obtain ⟨⟨r, users⟩, hset, h⟩ := bind_eq_ok h
      cases h
      refine ⟨_, Table.lookup_of_set hset hok, ?_⟩
      rw [if_neg hsize, decodes_created hlen fun role hrole => (hnames role hrole).1]
      simp [hsize]

end

section
attribute [local instance] littleEndian

/-- An empty server after the command `create_user root <password>`. -/
def created (password : Bytes) : Interpreter Table Volume Disk :=
  { (serverOn ∅).setPerms (str "create_user") ADMIN with
    users := (∅ : Table).insert (str "root") (field password ++ field (str "admin")) }

theorem createUserCb_created {password : Bytes} (hlen : ¬ 255 < password.length) :
    createUserCb ⟨str "create_user", [str "root", password]⟩ 1 (serverOn ∅) =
      .ok (output [], created password) := by
  simp only [createUserCb, if_neg hlen]
  rfl

theorem lookup_created (password : Bytes) : (created password).users.lookup (str "root") =
    some (field password ++ field (str "admin")) := AList.lookup_insert ∅

theorem createUser_decodes_short :
    ∃ data, (created (str "pw")).users.lookup (str "root") = some data ∧
      Decodes data (str "pw") [str "admin"] := by
  have hcreated : createUserCb ⟨str "create_user", [str "root", str "pw"]⟩ 1 (serverOn ∅) =
      .ok (output [], created (str "pw")) := createUserCb_created (by decide)
  obtain ⟨data, hdata, hiff⟩ := createUser_decodes rfl hcreated rfl
  have hshort : (str "pw").length < 128 := by decide
  exact ⟨data, hdata, hiff.mpr (.inl hshort)⟩

/-- A password of 200 bytes hides the role, one of 255 bytes is itself read as a role. -/
theorem createUser_long_password :
    (createUserCb ⟨str "create_user", [str "root", List.replicate 200 97]⟩ 1 (serverOn ∅) =
        .ok (output [], created (List.replicate 200 97)) ∧
      ∃ data, (created (List.replicate 200 97)).users.lookup (str "root") = some data ∧
        visited data = .ok [] ∧ ¬ Decodes data (List.replicate 200 97) [str "admin"]) ∧
    createUserCb ⟨str "create_user", [str "root", List.replicate 255 97]⟩ 1 (serverOn ∅) =
        .ok (output [], created (List.replicate 255 97)) ∧
      ∃ data, (created (List.replicate 255 97)).users.lookup (str "root") = some data ∧
        visited data = .ok [List.replicate 255 97, str "admin"] ∧
        ¬ Decodes data (List.replicate 255 97) [str "admin"] := by
  refine ⟨⟨createUserCb_created ?_, _, lookup_created _, ?_, ?_⟩,
    createUserCb_created ?_, _, lookup_created _, ?_, ?_⟩
  · rw [List.length_replicate]
    decide
  · decide +kernel
  · decide +kernel
  · rw [List.length_replicate]
    decide
  · decide +kernel
  · decide +kernel

end

/-! ### `add_roles` -/

section
variable {δ ω : Type} {s s' : Interpreter Table δ ω} {cmd : Cmd} {fd : Int} {res : Result}
  {username : Bytes} {names : List Bytes}

theorem decodes_added (r : UserRecord) (names : List Bytes) :
    Decodes (r.encode ++ names.flatMap field) r.password (r.roles ++ names) ↔
      ∀ name ∈ names, name.length ≤ 255 := by
  constructor
  · intro h name hname
    have hshort := (visitedFrom_length (decodes_iff.mp h).2).1 name (List.mem_append_right _ hname)
    omega
  · intro hnames
    have hrole : ∀ role ∈ r.roles ++ names, role.length < 256 := by
      intro role hrole
      obtain hrole | hrole := List.mem_append.mp hrole
      · exact r.role_lt role hrole
      · have := hnames role hrole
        omega
    have hdecodes := UserRecord.decodes ⟨r.password, r.roles ++ names, r.password_lt, hrole⟩
    rw [UserRecord.encode, List.flatMap_append, ← List.append_assoc] at hdecodes
    exact hdecodes

theorem Table.update_of_lookup {t : Table} {key old : Bytes} (h : t.lookup key = some old)
    (value : Bytes) : t.update key value = .ok (.success, t.insert key value) :=
  if_pos (mem_of_lookup h)

theorem addRoles_of_contains {roles : Table} (names : List Bytes)
    (hnames : ∀ name ∈ names, name ∈ roles) (data : Bytes) :
    addRoles roles data names = some (data ++ names.flatMap field) := by
  induction names generalizing data with
  | nil => rw [addRoles, List.flatMap_nil, List.append_nil]
  | cons name names ih =>
    obtain ⟨hname, hnames⟩ := List.forall_mem_cons.mp hnames
    have hcontains : Store.contains roles name = true := decide_eq_true hname
    rw [addRoles, if_pos hcontains, ih hnames, List.flatMap_cons, List.append_assoc]

theorem addRolesCb_eq {data : Bytes} (hargs : cmd.args = username :: names)
    (hget : s.users.lookup username = some data) (hnames : ∀ name ∈ names, name ∈ s.roles) :
    addRolesCb cmd fd s = .ok (output [],
      { s with users := s.users.insert username (data ++ names.flatMap field) }) := by
  have hstore : Store.get s.users username = some data := hget
  have hupdate : Store.update s.users username (data ++ names.flatMap field) = _ :=
    Table.update_of_lookup hget (data ++ names.flatMap field)
  simp only [addRolesCb, hargs, hstore, addRoles_of_contains names hnames, hupdate]
  rfl

/-- The names that `add_roles` appends are read as they are exactly when each length fits in its
byte. -/
theorem addRoles_decodes {r : UserRecord} (hargs : cmd.args = username :: names)
    (hget : s.users.lookup username = some r.encode) (h : addRolesCb cmd fd s = .ok (res, s'))
    (hok : res.ok) :
    ∃ data, s'.users.lookup username = some data ∧
      (Decodes data r.password (r.roles ++ names) ↔ ∀ name ∈ names, name.length ≤ 255) := by
  have hstore : Store.get s.users username = some r.encode := hget
  simp only [addRolesCb, hargs, hstore] at h
  split at h
  · cases h
    exact absurd hok (interErr_not_ok _)
  · rename_i data hadd
    obtain ⟨rfl, _⟩ := addRoles_eq_some hadd
    obtain ⟨⟨r', users⟩, hupdate, h⟩ := bind_eq_ok h
    cases h
    cases (Table.update_of_lookup hget _).symm.trans hupdate
    exact ⟨_, AList.lookup_insert _, decodes_added r names⟩

end

/-! ### `remove_roles` -/

/-- The loop takes one name off the arguments for every role that is to stay. -/
theorem foldlM_removeRoles (names roles iter : List Bytes) (buff : Bytes) :
    roles.foldlM (removeRolesBody names) (iter, buff) =
      if (roles.filter (· ∉ names)).length ≤ iter.length then
        .ok (iter.drop (roles.filter (· ∉ names)).length,
          buff ++ (iter.take (roles.filter (· ∉ names)).length).flatMap field)
      else .error .argument := by
  induction roles generalizing iter buff with
  | nil => simp [pure, Except.pure]
  | cons role roles ih =>
    rw [List.foldlM_cons]
    by_cases hrole : role ∈ names
    · have hskip : removeRolesBody names (iter, buff) role = .ok (iter, buff) := if_pos hrole
      rw [hskip, List.filter_cons_of_neg (by simpa using hrole)]
      exact ih iter buff
    · rw [List.filter_cons_of_pos (by simpa using hrole), List.length_cons]
      cases iter with
      | nil =>
        have hend : removeRolesBody names ([], buff) role = .error .argument := if_neg hrole
        rw [hend]
        rfl
      | cons name iter =>
        have htaken : removeRolesBody names (name :: iter, buff) role = .ok (iter, buff ++ field name) :=
          if_neg hrole
        simp only [htaken, bind, Except.bind, ih, List.length_cons, Nat.add_le_add_iff_right,
          List.drop_succ_cons, List.take_succ_cons, List.flatMap_cons, List.append_assoc]

section
variable {δ ω : Type} {s : Interpreter Table δ ω} {cmd : Cmd} {fd : Int} {username : Bytes}
  {names : List Bytes}

theorem removeRolesCb_eq {r : UserRecord} (hargs : cmd.args = username :: names)
    (hget : s.users.lookup username = some r.encode) : removeRolesCb cmd fd s =
      if (r.roles.filter (· ∉ names)).length ≤ names.length then
        .ok (output [], { s with users := s.users.insert username (field r.password ++
          (names.take (r.roles.filter (· ∉ names)).length).flatMap field) })
      else .error .argument := by
  have hstore : Store.get s.users username = some r.encode := hget
  have hwalk := r.walk_encode (removeRolesBody names) (names, field r.password)
  rw [r.recordStart_encode, foldlM_removeRoles] at hwalk
  simp only [removeRolesCb, hargs, hstore, r.take_recordStart, hwalk]
  split
  · simp only [bind, Except.bind]
    have hupdate := Table.update_of_lookup hget (field r.password ++
      (names.take (r.roles.filter (· ∉ names)).length).flatMap field)
    have hstore' : Store.update s.users username (field r.password ++
        (names.take (r.roles.filter (· ∉ names)).length).flatMap field) = _ := hupdate
    rw [hstore']
    rfl
  · rfl

/-- The command succeeds, and the record that it leaves reads as the password and the roles that
were not named. -/
def RemovesNamed (s : Interpreter Table δ ω) (cmd : Cmd) (fd : Int) (username : Bytes)
    (r : UserRecord) (names : List Bytes) : Prop :=
  ∃ res s' data, removeRolesCb cmd fd s = .ok (res, s') ∧ res.ok ∧
    s'.users.lookup username = some data ∧
    Decodes data r.password (r.roles.filter (· ∉ names))

/-- The names are written in place of the roles that are to stay, so these have to read alike; no
name that fits into a record does. -/
theorem removeRoles_named {r : UserRecord} (hargs : cmd.args = username :: names)
    (hget : s.users.lookup username = some r.encode) :
    (RemovesNamed s cmd fd username r names ↔
      (r.roles.filter (· ∉ names)).length ≤ names.length ∧
        Decodes (field r.password ++
          (names.take (r.roles.filter (· ∉ names)).length).flatMap field) r.password
          (r.roles.filter (· ∉ names))) ∧
    ((∀ name ∈ names, name.length ≤ 255) →
      (RemovesNamed s cmd fd username r names ↔ ∀ role ∈ r.roles, role ∈ names)) := by
  have hexact : RemovesNamed s cmd fd username r names ↔
      (r.roles.filter (· ∉ names)).length ≤ names.length ∧
        Decodes (field r.password ++
          (names.take (r.roles.filter (· ∉ names)).length).flatMap field) r.password
          (r.roles.filter (· ∉ names)) := by
    rw [RemovesNamed, removeRolesCb_eq hargs hget]
    constructor
    · rintro ⟨res, s', data, h, _, hdata, hdecodes⟩
      split at h
      · rename_i hlen
        cases h
        cases (AList.lookup_insert s.users).symm.trans hdata
        exact ⟨hlen, hdecodes⟩
      · cases h
    · rintro ⟨hlen, hdecodes⟩
      exact ⟨_, _, _, if_pos hlen, rfl, AList.lookup_insert s.users, hdecodes⟩
  refine ⟨hexact, fun hnames => hexact.trans ?_⟩
  constructor
  · rintro ⟨hlen, hdecodes⟩
    -- Short names read as they are, so the roles that stay would be among the names.
    have hwritten := UserRecord.decodes ⟨r.password,
      names.take (r.roles.filter (· ∉ names)).length, r.password_lt, fun name hname => by
        have := hnames name (List.mem_of_mem_take hname)
        omega⟩
    have hkept := (hdecodes.unique hwritten).2
    intro role hrole
    by_contra hnot
    have hmem : role ∈ r.roles.filter (· ∉ names) := List.mem_filter.mpr ⟨hrole, by simpa using hnot⟩
    rw [hkept] at hmem
    exact hnot (List.mem_of_mem_take hmem)
  · intro hall
    have hnone : r.roles.filter (· ∉ names) = [] := by
      simpa [List.filter_eq_nil_iff] using hall
    rw [hnone]
    exact ⟨Nat.zero_le _, UserRecord.decodes ⟨r.password, [], r.password_lt, by simp⟩⟩

end

section
attribute [local instance] littleEndian

/-- The server with one user `bob`, whose record is `r`. -/
def bobServer (r : UserRecord) : Interpreter Table Volume Disk :=
  serverOn ((∅ : Table).insert (str "bob") r.encode)

theorem lookup_bob (r : UserRecord) : (bobServer r).users.lookup (str "bob") = some r.encode :=
  AList.lookup_insert ∅

theorem password_lt : (str "pw").length < 128 := by decide

theorem developer_role_lt : ∀ role ∈ [str "admin", str "dev"], role.length < 256 := by decide

def developer : UserRecord := ⟨str "pw", [str "admin", str "dev"], password_lt, developer_role_lt⟩

theorem removeRoles_named_all :
    RemovesNamed (bobServer developer) ⟨str "remove_roles", [str "bob", str "dev", str "admin"]⟩ 1
      (str "bob") developer [str "dev", str "admin"] :=
  ((removeRoles_named rfl (lookup_bob developer)).2 (by decide)).mpr (by decide)

/-- Taking `dev` from a user with `admin` and `dev` leaves `dev` and takes `admin`; a name that the
user does not have is too few for both roles. -/
theorem removeRoles_wrong :
    (∃ s' data, removeRolesCb ⟨str "remove_roles", [str "bob", str "dev"]⟩ 1 (bobServer developer) =
        .ok (output [], s') ∧
      s'.users.lookup (str "bob") = some data ∧ Decodes data (str "pw") [str "dev"] ∧
      ¬ Decodes data (str "pw") (developer.roles.filter (· ∉ [str "dev"]))) ∧
    removeRolesCb ⟨str "remove_roles", [str "bob", str "ops"]⟩ 1 (bobServer developer) =
      .error .argument := by
  constructor
  · refine ⟨_, _, (removeRolesCb_eq rfl (lookup_bob developer)).trans (if_pos (by decide)),
      AList.lookup_insert _, ?_, ?_⟩ <;> decide +kernel
  · exact (removeRolesCb_eq rfl (lookup_bob developer)).trans (if_neg (by decide))

theorem guest_role_lt : ∀ role ∈ ([] : List Bytes), role.length < 256 := by simp

def guest : UserRecord := ⟨str "pw", [], password_lt, guest_role_lt⟩

theorem addRoles_decodes_admin :
    ∃ s', addRolesCb ⟨str "add_roles", [str "bob", str "admin"]⟩ 1 (bobServer guest) =
        .ok (output [], s') ∧
      ∃ data, s'.users.lookup (str "bob") = some data ∧
        Decodes data (str "pw") [str "admin"] := by
  have hadd := @addRolesCb_eq Volume Disk _ ⟨str "add_roles", [str "bob", str "admin"]⟩ 1 _ _ _ rfl
    (lookup_bob guest) (by decide)
  obtain ⟨data, hdata, hiff⟩ := addRoles_decodes rfl (lookup_bob guest) hadd rfl
  have hshort : ∀ name ∈ [str "admin"], name.length ≤ 255 := by decide
  exact ⟨_, hadd, data, hdata, hiff.mpr hshort⟩

/-- A name of 256 bytes, with the field of `admin` at its start. -/
def longName : Bytes := field (str "admin") ++ List.replicate 250 0

def longRole : Interpreter Table Volume Disk :=
  { bobServer guest with roles := (bobServer guest).roles.insert longName (flagWord 0) }

/-- The role of that name has no flag, and yet makes its user an administrator. -/
theorem addRoles_long_name :
    createRoleCb ⟨str "create_role", [longName]⟩ 1 (bobServer guest) = .ok (output [], longRole) ∧
      ∃ s' data, addRolesCb ⟨str "add_roles", [str "bob", longName]⟩ 1 longRole =
          .ok (output [], s') ∧
        s'.users.lookup (str "bob") = some data ∧
        ¬ Decodes data guest.password (guest.roles ++ [longName]) ∧
        visited data = .ok ([] :: str "admin" :: List.replicate 250 []) := by
  constructor
  · have hlen : ¬ 256 < longName.length := by decide +kernel
    have hnew : longName ∉ (bobServer guest).roles := by decide +kernel
    have hset : Store.set (bobServer guest).roles longName (flagWord 0) =
        .ok (.success, (bobServer guest).roles.insert longName (flagWord 0)) := by
      change Table.set _ _ _ = _
      rw [Table.set, if_neg hnew]
    simp only [createRoleCb, if_neg hlen, flagsNamed, hset]
    rfl
  · have hlookup : longRole.users.lookup (str "bob") = some guest.encode := lookup_bob guest
    refine ⟨_, _, addRolesCb_eq rfl hlookup ?_, AList.lookup_insert _, ?_, ?_⟩
    · intro name hname
      obtain rfl := List.mem_singleton.mp hname
      exact AList.mem_insert _ |>.mpr (.inl rfl)
    · decide +kernel
    · decide +kernel

end

end Ambry.Aci
