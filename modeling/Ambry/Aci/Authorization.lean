import Ambry.Aci.Administration
import Ambry.Aci.StoredUsers

/-!
# Authority in a run

The records that the permission check relies on are written by the commands it
guards. As long as names and passwords fit into their length bytes every command
writes proper records, so the check never fails, and nothing happens in a run
without the flags that its command asks for.
-/

namespace Ambry.Aci

open Foundation Interpreter

/-- The arguments fit into a length byte, and the password of `create_user` into seven bits of
it. -/
def Fits : Event → Prop
  | .command _ cmd => (∀ arg ∈ cmd.args, arg.length < 256) ∧
      (cmd.cmd = str "create_user" → ∀ password ∈ cmd.args[1]?, password.length < 128)
  | .hangup _ => True

instance : (e : Event) → Decidable (Fits e)
  | .command _ cmd => inferInstanceAs (Decidable ((∀ arg ∈ cmd.args, arg.length < 256) ∧
      (cmd.cmd = str "create_user" → ∀ password ∈ cmd.args[1]?, password.length < 128)))
  | .hangup _ => .isTrue trivial

def UserRecord.append (r : UserRecord) (names : List Bytes)
    (hnames : ∀ name ∈ names, name.length < 256) : UserRecord :=
  { r with
    roles := r.roles ++ names
    role_lt := fun role hrole => (List.mem_append.mp hrole).elim (r.role_lt role) (hnames role) }

theorem UserRecord.encode_append (r : UserRecord) {names : List Bytes}
    (hnames : ∀ name ∈ names, name.length < 256) :
    (r.append names hnames).encode = r.encode ++ names.flatMap field := by
  simp [UserRecord.encode, UserRecord.append]

def Proper (users : Table) : Prop :=
  ∀ name data, users.lookup name = some data → ∃ r : UserRecord, data = r.encode

theorem Proper.insert {users : Table} (h : Proper users) (name : Bytes) (r : UserRecord) :
    Proper (users.insert name r.encode) := by
  intro other data hother
  obtain ⟨rfl, rfl⟩ | ⟨_, hother⟩ := lookup_insert_cases hother
  · exact ⟨r, rfl⟩
  · exact h other data hother

/-- What is written behind the password are names of the command. -/
theorem removeRoles_names {data head : Bytes} {names iter : List Bytes} {buff : Bytes}
    {turns offset : Nat} (h : walk data (removeRolesBody names) turns offset (names, head) =
      .ok (iter, buff)) :
    ∃ written : List Bytes, buff = head ++ written.flatMap field ∧ ∀ name ∈ written, name ∈ names := by
  have hstep : ∀ state role state',
      (∃ written : List Bytes, state.2 = head ++ written.flatMap field ∧
        written ++ state.1 = names) →
      removeRolesBody names state role = .ok state' →
      ∃ written : List Bytes, state'.2 = head ++ written.flatMap field ∧
        written ++ state'.1 = names := by
    rintro ⟨iter, buff⟩ role ⟨iter', buff'⟩ ⟨written, rfl, hnames⟩ hbody
    unfold removeRolesBody at hbody
    split at hbody
    · cases hbody
      exact ⟨written, rfl, hnames⟩
    · cases iter with
      | nil => cases hbody
      | cons name iter =>
        cases hbody
        refine ⟨written ++ [name], ?_, ?_⟩
        · rw [List.flatMap_append, List.flatMap_singleton]
          exact List.append_assoc _ _ _
        · rw [← hnames, List.append_assoc, List.singleton_append]
  obtain ⟨written, hbuff, hnames⟩ := walk_invariant hstep h ⟨[], by simp, rfl⟩
  refine ⟨written, hbuff, fun name hname => ?_⟩
  rw [← hnames]
  exact List.mem_append_left _ hname

section
variable {δ ω : Type} [Database δ ω] {s s' : Interpreter Table δ ω} {cmd : Cmd} {fd : Int}
  {fn : CmdFN} {r : Result}

theorem Effect.proper (heffect : Effect s cmd fd fn r s') (h : Proper s.users)
    (hargs : ∀ arg ∈ cmd.args, arg.length < 256)
    (hpassword : fn = .createUserCb → ∀ password ∈ cmd.args[1]?, password.length < 128) :
    Proper s'.users := by
  have hroles : (str "admin").length < 256 := by decide
  cases heffect with
  | refused | answered | onWdb | opened | switched | closed | closedAll | unlinked | destroyed
  | destroyedAll | destroyedSome | roles | loggedIn | loggedOut => exact h
  | @createdFirst username password rest _ _ heq hlen hsize hset =>
    have hlt : password.length < 128 := hpassword rfl password (by rw [heq]; rfl)
    obtain rfl | ⟨_, rfl⟩ := Table.set_cases hset
    · exact h
    · have hinsert := h.insert username ⟨password, [str "admin"], hlt, by simpa using hroles⟩
      simpa [UserRecord.encode] using hinsert
  | @createdUser username password rest more _ _ heq hlen hsize happend hset =>
    have hlt : password.length < 128 := hpassword rfl password (by rw [heq]; rfl)
    have hnames : ∀ name ∈ rest, name.length < 256 := by
      intro name hname
      apply hargs
      rw [heq]
      simp [hname]
    obtain ⟨hmore, _⟩ := appendRoles_eq_ok happend
    obtain rfl | ⟨_, rfl⟩ := Table.set_cases hset
    · exact h
    · rw [hmore]
      exact h.insert username ⟨password, rest, hlt, hnames⟩
  | @addedRoles username data more names _ _ heq hget hadd hupdate =>
    have hnames : ∀ name ∈ names, name.length < 256 := by
      intro name hname
      apply hargs
      rw [heq]
      simp [hname]
    obtain ⟨hmore, _⟩ := addRoles_eq_some hadd
    obtain ⟨record, rfl⟩ := h username data hget
    obtain ⟨_, rfl⟩ | ⟨_, rfl⟩ := Table.update_cases hupdate
    · exact h
    · rw [hmore, ← record.encode_append hnames]
      exact h.insert username _
  | @removedRoles username data buff names iter _ _ heq hget hwalk hupdate =>
    obtain ⟨record, rfl⟩ := h username data hget
    rw [record.take_recordStart] at hwalk
    obtain ⟨written, rfl, hwritten⟩ := removeRoles_names hwalk
    have hnames : ∀ name ∈ written, name.length < 256 := by
      intro name hname
      apply hargs
      rw [heq]
      simp [hwritten name hname]
    obtain ⟨_, rfl⟩ | ⟨_, rfl⟩ := Table.update_cases hupdate
    · exact h
    · exact h.insert username ⟨record.password, written, record.password_lt, hnames⟩
  | deletedUser _ herase =>
    obtain rfl | ⟨_, rfl⟩ := Table.erase_cases herase
    · exact h
    · exact fun other data hother => h other data (lookup_erase_some hother).2

end

section
variable {δ ω : Type} [Database δ ω] [Machine] {s s' : Interpreter Table δ ω} {e : Event} {r : Result}

theorem Interpreter.Records.handle (h : s.Records) (htabled : Tabled s.ct) (hfits : Fits e)
    (hstep : s.handle e = .ok (r, s')) : s'.Records := by
  cases e with
  | hangup fd =>
    cases hstep
    exact ⟨h.users, h.roles⟩
  | command fd cmd =>
    obtain ⟨_, rfl⟩ | ⟨ch, hpasses, hcall⟩ := interpret_cases hstep
    · exact h
    obtain ⟨hargs, hpassword⟩ := hfits
    refine ⟨?_, ?_⟩
    · refine (callFn_effect hcall).proper h.users hargs fun hfn => hpassword ?_
      exact (htabled.wired.name_iff hpasses.lookup (by decide)).mpr hfn
    · obtain hsame | ⟨name, flags, f, res, _, _, _, hset, _⟩ :=
        callFn_roles (hpasses.not_deleteRole htabled) hcall
      · rw [hsame]
        exact h.roles
      · intro role value hrole
        obtain hsame | ⟨_, hinsert⟩ := Table.set_cases hset
        · exact h.roles role value (hsame ▸ hrole)
        · have hrole : s'.roles.lookup role = some value := hrole
          rw [hinsert] at hrole
          obtain ⟨rfl, rfl⟩ | ⟨_, hrole⟩ := lookup_insert_cases hrole
          · exact ⟨f, rfl⟩
          · exact h.roles role value hrole

omit [Machine] in
theorem Effect.users_eq {cmd : Cmd} {fd : Int} {fn : CmdFN} (heffect : Effect s cmd fd fn r s') :
    s'.users = s.users ∨ fn ∈ [.createUserCb, .deleteUserCb, .addRolesCb, .removeRolesCb] := by
  cases heffect with
  | createdFirst | createdUser | addedRoles | removedRoles | deletedUser => exact .inr (by decide)
  | _ => exact .inl rfl

end

section
attribute [local instance] littleEndian

end

end Ambry.Aci
