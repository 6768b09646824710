import Ambry.Aci.Gate

/-!
# The exact decision

The loop counts a flag only if it has a line in the table of the names, and one
flag has none. For every other flag the check decides what it is meant to; a set
with that flag is never granted, not even to the role that has every flag.
-/

namespace Ambry.Aci

open Foundation

instance decidableListed (p : FLAG) : Decidable (Listed p) :=
  inferInstanceAs (Decidable (p ∈ permTable.map Prod.snd))

theorem listed_iff : ∀ {p : FLAG}, Listed p ↔ p ≠ .DELETE_ROLE := by decide +kernel

theorem test_admin : ∀ p : FLAG, ADMIN.test p := by decide +kernel

theorem test_deleteRole_zero : ¬ FlagT.test 0 .DELETE_ROLE := by decide

/-- The commands that the check refuses to everyone. -/
theorem test_deleteRole_iff {createUser : FlagT} {e : Bytes × CmdHandle}
    (he : e ∈ commandTable createUser) : e.2.perms.test .DELETE_ROLE ↔
      e.1 = str "delete_role" ∨ e.1 = str "create_user" ∧ createUser.test .DELETE_ROLE := by
  have htail : ∀ e ∈ (commandTable 0).tail,
      (e.2.perms.test .DELETE_ROLE ↔ e.1 = str "delete_role") ∧ e.1 ≠ str "create_user" := by
    decide +kernel
  obtain rfl | he := List.mem_cons.mp he
  · have hne : str "create_user" ≠ str "delete_role" := by decide
    simp [hne]
  · obtain ⟨htest, hne⟩ := htail e he
    simp [htest, hne]

namespace Interpreter

variable {σ δ ω : Type} [Store σ] [Machine] {s : Interpreter σ δ ω}

theorem calculatePerms_exact (hrecords : s.Records) (fd : Int) (needed : FlagT) :
    ∃ b, s.calculatePerms fd needed = .ok b ∧
      (b ↔ ¬ needed.test .DELETE_ROLE ∧ s.Permitted fd needed) := by
  obtain ⟨b, hb, hiff⟩ := calculatePerms_iff hrecords fd needed
  refine ⟨b, hb, hiff.trans ?_⟩
  constructor
  · rintro (rfl | ⟨login, hlogin, r, hget, hgranted⟩)
    · exact ⟨test_deleteRole_zero, .inl rfl⟩
    · refine ⟨fun hdelete => ?_, .inr ⟨login, hlogin, r, hget, fun p hp => (hgranted p hp).2⟩⟩
      exact listed_iff.mp (hgranted _ hdelete).1 rfl
  · rintro ⟨hdelete, rfl | ⟨login, hlogin, r, hget, hgranted⟩⟩
    · exact .inl rfl
    · refine .inr ⟨login, hlogin, r, hget, fun p hp => ⟨listed_iff.mpr ?_, hgranted p hp⟩⟩
      rintro rfl
      exact hdelete hp

/-- A session of a user with the role `admin`, which has every flag. -/
theorem permitted_admin {fd : Int} {login : Login} {r : UserRecord}
    (hlogin : s.logins.lookup fd = some login)
    (hget : Store.get s.users login.name = some r.encode) (hadmin : str "admin" ∈ r.roles)
    (hrole : Store.get s.roles (str "admin") = some (flagWord ADMIN)) (needed : FlagT) :
    s.Permitted fd needed :=
  .inr ⟨login, hlogin, r, hget, fun p _ => ⟨str "admin", hadmin, ADMIN, hrole, test_admin p⟩⟩

/-- The check is what it is meant to be except where a set with the unlisted flag is permitted,
and so the role `admin` passes it for every command but those with that flag. -/
theorem permissions_decided (hrecords : s.Records) :
    (∀ fd needed, ∃ b, s.calculatePerms fd needed = .ok b ∧
      ((b ↔ s.Permitted fd needed) ↔ ¬ (needed.test .DELETE_ROLE ∧ s.Permitted fd needed))) ∧
    ∀ fd login (r : UserRecord), s.logins.lookup fd = some login →
      Store.get s.users login.name = some r.encode → str "admin" ∈ r.roles →
      Store.get s.roles (str "admin") = some (flagWord ADMIN) →
      ∀ createUser, ∀ e ∈ commandTable createUser,
        (s.calculatePerms fd e.2.perms = .ok true ↔
          e.1 ≠ str "delete_role" ∧ (e.1 = str "create_user" → ¬ createUser.test .DELETE_ROLE)) := by
  constructor
  · intro fd needed
    obtain ⟨b, hb, hiff⟩ := calculatePerms_exact hrecords fd needed
    refine ⟨b, hb, ?_⟩
    rw [hiff]
    constructor
    · rintro h ⟨hdelete, hpermitted⟩
      exact (h.mpr hpermitted).1 hdelete
    · intro h
      exact ⟨And.right, fun hpermitted => ⟨fun hdelete => h ⟨hdelete, hpermitted⟩, hpermitted⟩⟩
  · intro fd login r hlogin hget hadmin hrole createUser e he
    obtain ⟨b, hb, hiff⟩ := calculatePerms_exact hrecords fd e.2.perms
    have htest := test_deleteRole_iff he
    have hpermitted := permitted_admin hlogin hget hadmin hrole e.2.perms
    rw [hb, Except.ok.injEq, hiff, htest]
    simp only [not_or, not_and, hpermitted, and_true, ne_eq]

end Interpreter

section
attribute [local instance] littleEndian

/-- The record of the only user of the server, who has the role `admin`. -/
def root : UserRecord := ⟨str "pw", [str "admin"], by decide, by decide⟩

theorem get_root : Store.get rootSession.users (str "root") = some root.encode :=
  AList.lookup_insert ∅

theorem login_root : rootSession.logins.lookup 1 = some { name := str "root" } :=
  AList.lookup_insert ∅

theorem role_root : Store.get rootSession.roles (str "admin") = some (flagWord ADMIN) :=
  AList.lookup_insert ∅

/-- This user may create roles and list the open databases. -/
theorem permissions_decided_rootSession :
    (∃ b, rootSession.calculatePerms 1 (setPerms [.CREATE_ROLE]) = .ok b ∧
      ((b ↔ rootSession.Permitted 1 (setPerms [.CREATE_ROLE])) ↔
        ¬ ((setPerms [.CREATE_ROLE]).test .DELETE_ROLE ∧
          rootSession.Permitted 1 (setPerms [.CREATE_ROLE])))) ∧
    rootSession.calculatePerms 1 (commandTable 0)[25].2.perms = .ok true := by
  have hdecided := Interpreter.permissions_decided records_rootSession
  refine ⟨hdecided.1 1 (setPerms [.CREATE_ROLE]), ?_⟩
  have hadmin : str "admin" ∈ root.roles := List.mem_singleton.mpr rfl
  apply (hdecided.2 1 _ root login_root get_root hadmin role_root 0 _ (List.getElem_mem _)).mpr
  decide

/-- The same user may not delete roles. -/
theorem permissions_deleteRole_refused :
    rootSession.Records ∧ rootSession.Permitted 1 (setPerms [.DELETE_ROLE]) ∧
      rootSession.calculatePerms 1 (setPerms [.DELETE_ROLE]) = .ok false := by
  have hadmin : str "admin" ∈ root.roles := List.mem_singleton.mpr rfl
  have hpermitted := Interpreter.permitted_admin login_root get_root hadmin role_root
    (setPerms [.DELETE_ROLE])
  refine ⟨records_rootSession, hpermitted, ?_⟩
  obtain ⟨b, hb, hiff⟩ := Interpreter.calculatePerms_exact records_rootSession 1
    (setPerms [.DELETE_ROLE])
  cases b with
  | false => exact hb
  | true => exact absurd (by decide) (hiff.mp rfl).1

end

end Ambry.Aci
