import Ambry.Aci.Stores
import Ambry.Foundation.Records

/-!
# The permission gate

`calculate_perms` counts the flags that it clears from the set of those needed.
At every turn the flags left over and the count make up the number it started
with, and a flag is cleared only where a role grants it, so the count is reached
only when every flag is granted.
-/

namespace Ambry.Aci

open Foundation

namespace FlagT

theorem test_flip (f : FlagT) (p q : FLAG) :
    (f.flip p).test q = (f.test q ^^ decide (p = q)) := by
  rw [test, test, flip, BitVec.getLsbD_xor, BitVec.getLsbD_twoPow, decide_eq_true p.bit_lt,
    Bool.true_and, decide_eq_decide.mpr FLAG.bit_inj]

theorem count_flip {f : FlagT} {p : FLAG} (h : f.test p) : (f.flip p).count + 1 = f.count := by
  have herase : (Finset.univ.filter fun q => (f.flip p).test q) =
      (Finset.univ.filter fun q => f.test q).erase p := by
    ext q
    simp only [Finset.mem_filter, Finset.mem_univ, true_and, Finset.mem_erase, test_flip]
    rcases eq_or_ne p q with rfl | hne
    · simp [h]
    · simp [hne, hne.symm]
  rw [count, herase]
  exact Finset.card_erase_add_one (Finset.mem_filter.mpr ⟨Finset.mem_univ p, h⟩)

theorem count_eq_zero {f : FlagT} : f.count = 0 ↔ ∀ p, ¬ f.test p := by
  rw [count, Finset.card_eq_zero, Finset.filter_eq_empty_iff]
  exact ⟨fun h p => h (Finset.mem_univ p), fun h p _ => h p⟩

end FlagT

/-- The flag has a line in `perm_table`. -/
def Listed (p : FLAG) : Prop := p ∈ permTable.map Prod.snd

/-- From one state of the loop to another: a flag is cleared where it is granted, and counted. -/
structure Cleared (granted : FLAG → Prop) (state state' : FlagT × Nat) : Prop where
  test_iff : ∀ p, state'.1.test p ↔ state.1.test p ∧ ¬ granted p
  count : state'.1.count + state'.2 = state.1.count + state.2

namespace Cleared

theorem trans {granted granted' : FLAG → Prop} {a b c : FlagT × Nat} (h : Cleared granted a b)
    (h' : Cleared granted' b c) : Cleared (fun p => granted p ∨ granted' p) a c where
  test_iff p := by rw [h'.test_iff, h.test_iff, and_assoc, not_or]
  count := h'.count.trans h.count

theorem congr {granted granted' : FLAG → Prop} {a b : FlagT × Nat} (h : Cleared granted a b)
    (hiff : ∀ p, granted p ↔ granted' p) : Cleared granted' a b where
  test_iff p := by rw [h.test_iff, hiff]
  count := h.count

theorem none {a : FlagT × Nat} : Cleared (fun _ => False) a a where
  test_iff p := by rw [not_false_eq_true, and_true]
  count := rfl

theorem count_le_iff {granted : FLAG → Prop} {needed : FlagT} {state : FlagT × Nat}
    (h : Cleared granted (needed, 0) state) :
    needed.count ≤ state.2 ↔ ∀ p, needed.test p → granted p := by
  have hcount := h.count
  have hzero : needed.count ≤ state.2 ↔ state.1.count = 0 := by
    dsimp only at hcount
    omega
  rw [hzero, FlagT.count_eq_zero]
  refine forall_congr' fun p => ?_
  rw [h.test_iff, not_and, not_not]

end Cleared

theorem cleared_satisfy (flag : FlagT) (state : FlagT × Nat) (entry : Bytes × FLAG) :
    Cleared (fun p => p = entry.2 ∧ flag.test p) state (Interpreter.satisfy flag state entry) := by
  rw [Interpreter.satisfy]
  split
  case isTrue h =>
    constructor
    · intro p
      rw [FlagT.test_flip]
      rcases eq_or_ne entry.2 p with rfl | hne
      · simp [h.1, h.2]
      · simp [hne, hne.symm]
    · have hflip := FlagT.count_flip h.1
      dsimp only
      omega
  case isFalse h =>
    constructor
    · rintro p
      constructor
      · rintro hp
        refine ⟨hp, ?_⟩
        rintro ⟨rfl, hflag⟩
        exact h ⟨hp, hflag⟩
      · exact And.left
    · rfl

theorem cleared_table (flag : FlagT) (table : List (Bytes × FLAG)) (state : FlagT × Nat) :
    Cleared (fun p => p ∈ table.map Prod.snd ∧ flag.test p) state
      (table.foldl (Interpreter.satisfy flag) state) := by
  induction table generalizing state with
  | nil => exact Cleared.none.congr fun p => by simp
  | cons entry table ih =>
    refine ((cleared_satisfy flag state entry).trans (ih _)).congr fun p => ?_
    rw [List.map_cons, List.mem_cons, or_and_right]

section
variable {σ δ ω : Type} [Store σ] [Machine]

def Grants (roles : σ) (role : Bytes) (p : FLAG) : Prop :=
  ∃ f : FlagT, Store.get roles role = some (flagWord f) ∧ f.test p

theorem permsBody_spec {roles : σ}
    (hroles : ∀ role value, Store.get roles role = some value → ∃ f, value = flagWord f)
    (state : FlagT × Nat) (role : Bytes) :
    ∃ state', Interpreter.permsBody roles state role = .ok state' ∧
      Cleared (fun p => Listed p ∧ Grants roles role p) state state' := by
  rw [Interpreter.permsBody]
  cases hget : Store.get roles role with
  | none =>
    refine ⟨state, rfl, Cleared.none.congr fun p => ?_⟩
    rw [Grants, hget]
    simp
  | some value =>
    obtain ⟨f, rfl⟩ := hroles role value hget
    refine ⟨_, by simp only [fromStr_flagWord]; rfl,
      (cleared_table f permTable state).congr fun p => ?_⟩
    constructor
    · rintro ⟨hlisted, hf⟩
      exact ⟨hlisted, f, hget, hf⟩
    · rintro ⟨hlisted, g, hg, htest⟩
      obtain rfl : f = g := by
        rw [hget] at hg
        have hword := congrArg fromStr (Option.some.inj hg)
        rw [fromStr_flagWord, fromStr_flagWord] at hword
        exact Except.ok.inj hword
      exact ⟨hlisted, htest⟩

theorem permsLoop_spec {roles : σ}
    (hroles : ∀ role value, Store.get roles role = some value → ∃ f, value = flagWord f)
    (names : List Bytes) (state : FlagT × Nat) :
    ∃ state', names.foldlM (Interpreter.permsBody roles) state = .ok state' ∧
      Cleared (fun p => Listed p ∧ ∃ role ∈ names, Grants roles role p) state state' := by
  induction names generalizing state with
  | nil => exact ⟨state, rfl, Cleared.none.congr fun p => by simp⟩
  | cons role names ih =>
    obtain ⟨state₁, hbody, hcleared⟩ := permsBody_spec hroles state role
    obtain ⟨state₂, hloop, hcleared'⟩ := ih state₁
    refine ⟨state₂, ?_, (hcleared.trans hcleared').congr fun p => ?_⟩
    · rw [List.foldlM_cons, hbody]
      exact hloop
    · rw [← and_or_left, List.exists_mem_cons_iff]

omit [Machine] in
theorem UserRecord.recordStart_encode (r : UserRecord) :
    recordStart r.encode = (field r.password).length := by
  have hlt := r.password_lt
  rw [encode, recordStart_field (by omega), if_pos hlt]
  rfl

omit [Machine] in
theorem UserRecord.walk_encode {α : Type} (r : UserRecord) (body : α → Bytes → Outcome α) (a : α) :
    walk r.encode body r.encode.length (recordStart r.encode) a = r.roles.foldlM body a := by
  have hturns : r.roles.length < r.encode.length := by
    have hnames : 1 * r.roles.length ≤ (r.roles.flatMap field).length :=
      length_le_flatMap (fun s => Nat.le_add_left 1 s.length) r.roles
    rw [encode, List.length_append, field, List.length_cons]
    omega
  rw [r.recordStart_encode]
  exact walk_fields r.role_lt (field r.password) _ a hturns

namespace Interpreter

/-- Users and roles are recorded as `create_user`, `add_roles` and `create_role` do it. -/
structure Records (s : Interpreter σ δ ω) : Prop where
  users : ∀ name data, Store.get s.users name = some data → ∃ r : UserRecord, data = r.encode
  roles : ∀ name value, Store.get s.roles name = some value → ∃ f, value = flagWord f

/-- The session is logged in as a user whose roles grant every flag of the set. -/
def Permitted (s : Interpreter σ δ ω) (fd : Int) (needed : FlagT) : Prop :=
  needed = 0 ∨ ∃ login, s.logins.lookup fd = some login ∧
    ∃ r : UserRecord, Store.get s.users login.name = some r.encode ∧
      ∀ p, needed.test p → ∃ role ∈ r.roles, Grants s.roles role p

theorem calculatePerms_encode {s : Interpreter σ δ ω} (hrecords : s.Records) {fd : Int}
    {needed : FlagT} {login : Login} {r : UserRecord} (hneeded : needed ≠ 0)
    (hlogin : s.logins.lookup fd = some login)
    (hget : Store.get s.users login.name = some r.encode) :
    ∃ b, s.calculatePerms fd needed = .ok b ∧
      (b ↔ ∀ p, needed.test p → Listed p ∧ ∃ role ∈ r.roles, Grants s.roles role p) := by
  obtain ⟨state, hloop, hcleared⟩ := permsLoop_spec hrecords.roles r.roles (needed, 0)
  refine ⟨decide (needed.count ≤ state.2), ?_, ?_⟩
  · simp only [calculatePerms, if_neg hneeded, hlogin, hget, r.walk_encode, hloop]
    rfl
  · rw [decide_eq_true_eq, hcleared.count_le_iff]

/-- The check has an answer: every flag has a line in the table and is granted. -/
theorem calculatePerms_iff {s : Interpreter σ δ ω} (hrecords : s.Records) (fd : Int)
    (needed : FlagT) :
    ∃ b, s.calculatePerms fd needed = .ok b ∧
      (b ↔ needed = 0 ∨ ∃ login, s.logins.lookup fd = some login ∧
        ∃ r : UserRecord, Store.get s.users login.name = some r.encode ∧
          ∀ p, needed.test p → Listed p ∧ ∃ role ∈ r.roles, Grants s.roles role p) := by
  by_cases hneeded : needed = 0
  · exact ⟨true, by rw [calculatePerms, if_pos hneeded], iff_of_true rfl (.inl hneeded)⟩
  cases hlogin : s.logins.lookup fd with
  | none =>
    refine ⟨false, by simp only [calculatePerms, if_neg hneeded, hlogin],
      iff_of_false Bool.false_ne_true ?_⟩
    rintro (hzero | ⟨_, hlogin', _⟩)
    · exact hneeded hzero
    · cases hlogin'
  | some login =>
    cases hget : Store.get s.users login.name with
    | none =>
      refine ⟨false, by simp only [calculatePerms, if_neg hneeded, hlogin, hget],
        iff_of_false Bool.false_ne_true ?_⟩
      rintro (hzero | ⟨login', hlogin', r, hget', _⟩)
      · exact hneeded hzero
      · cases hlogin'
        rw [hget] at hget'
        cases hget'
    | some data =>
      obtain ⟨r, rfl⟩ := hrecords.users login.name data hget
      obtain ⟨b, hb, hiff⟩ := calculatePerms_encode hrecords hneeded hlogin hget
      refine ⟨b, hb, fun h => .inr ⟨login, rfl, r, hget, hiff.mp h⟩, ?_⟩
      rintro (hzero | ⟨login', hlogin', r', hget', hgranted⟩)
      · exact absurd hzero hneeded
      · cases hlogin'
        obtain ⟨b', hb', hiff'⟩ := calculatePerms_encode hrecords hneeded hlogin hget'
        obtain rfl : b = b' := Except.ok.inj (hb.symm.trans hb')
        exact hiff'.mpr hgranted

/-- The check lets through only what is permitted. -/
theorem calculatePerms_sound {s : Interpreter σ δ ω} (hrecords : s.Records) (fd : Int)
    (needed : FlagT) :
    ∃ b, s.calculatePerms fd needed = .ok b ∧ (b → s.Permitted fd needed) := by
  obtain ⟨b, hb, hiff⟩ := calculatePerms_iff hrecords fd needed
  refine ⟨b, hb, fun h => ?_⟩
  obtain hzero | ⟨login, hlogin, r, hget, hgranted⟩ := hiff.mp h
  · exact .inl hzero
  · exact .inr ⟨login, hlogin, r, hget, fun p hp => (hgranted p hp).2⟩

structure Checked (s : Interpreter σ δ ω) (cmd : Cmd) (fd : Int) (ch : CmdHandle) : Prop where
  arity : ch.arity = -1 ∨ (ch.arity % 2 ^ 64).toNat ≤ cmd.args.length
  wdb : ch.expectWdb → s.getWdb fd ≠ some none

/-- Either all checks are passed and the handler runs, or the command is refused. -/
theorem interpret_gate {s : Interpreter σ δ ω} (hrecords : s.Records) (cmd : Cmd)
    (fd : Int) :
    (∃ ch, s.ct.lookup cmd.cmd = some ch ∧ s.Checked cmd fd ch ∧ s.Permitted fd ch.perms ∧
      ∀ call : CmdFN → Handler σ δ ω, s.interpret call cmd fd = call ch.fn cmd fd s) ∨
    ∃ msg, ∀ call : CmdFN → Handler σ δ ω, s.interpret call cmd fd = .ok (interErr msg, s) := by
  cases hlookup : s.ct.lookup cmd.cmd with
  | none =>
    refine .inr ⟨"command does not exist", fun call => ?_⟩
    rw [interpret, hlookup]
  | some ch =>
    by_cases harity : ch.arity ≠ -1 ∧ cmd.args.length < (ch.arity % 2 ^ 64).toNat
    · refine .inr ⟨"Not enough arguments to command", fun call => ?_⟩
      simp only [interpret, hlookup, if_pos harity]
    by_cases hwdb : ch.expectWdb ∧ s.getWdb fd = some none
    · refine .inr ⟨"expected an open database but none found", fun call => ?_⟩
      simp only [interpret, hlookup, if_neg harity, if_pos hwdb]
    obtain ⟨b, hperms, hpermitted⟩ := calculatePerms_sound hrecords fd ch.perms
    cases b with
    | false =>
      refine .inr ⟨"you do not meet the permissions to execute this command", fun call => ?_⟩
      simp only [interpret, hlookup, if_neg harity, if_neg hwdb, hperms]
      rfl
    | true =>
      refine .inl ⟨ch, rfl, ⟨by omega, fun h heq => hwdb ⟨h, heq⟩⟩, hpermitted rfl, fun call => ?_⟩
      simp only [interpret, hlookup, if_neg harity, if_neg hwdb, hperms]
      rfl

end Interpreter

end

section
attribute [local instance] littleEndian

/-- A server with one user, who is logged in as session 1. -/
def rootSession : Interpreter Table Volume Disk :=
  { (serverOn rootOnly).initCommands with
    logins := (∅ : AList fun _ : Int => Login).insert 1 { name := str "root" } }

theorem records_rootSession : rootSession.Records := by
  constructor
  · rintro name data hget
    refine ⟨⟨str "pw", [str "admin"], by decide, by decide⟩, ?_⟩
    rcases eq_or_ne name (str "root") with rfl | hne
    · exact Option.some.inj hget.symm
    · have hnone : Store.get rootSession.users name = none := AList.lookup_insert_ne hne
      rw [hnone] at hget
      cases hget
  · rintro role value hget
    refine ⟨ADMIN, ?_⟩
    rcases eq_or_ne role (str "admin") with rfl | hne
    · exact Option.some.inj hget.symm
    · have hnone : Store.get rootSession.roles role = none := AList.lookup_insert_ne hne
      rw [hnone] at hget
      cases hget

/-- The handler of `open` is reached, as one that only fails shows. -/
theorem interpret_gate_rootSession :
    ∃ ch, rootSession.ct.lookup (str "open") = some ch ∧
      rootSession.Checked ⟨str "open", [str "d"]⟩ 1 ch ∧ rootSession.Permitted 1 ch.perms ∧
      ∀ call : CmdFN → Handler Table Volume Disk,
        rootSession.interpret call ⟨str "open", [str "d"]⟩ 1 =
          call ch.fn ⟨str "open", [str "d"]⟩ 1 rootSession := by
  have hreached : (rootSession.interpret (fun _ _ _ _ => .error .argument)
      ⟨str "open", [str "d"]⟩ 1).isOk = false := by
    decide +kernel
  obtain hcalled | ⟨msg, hrefused⟩ :=
    Interpreter.interpret_gate records_rootSession ⟨str "open", [str "d"]⟩ 1
  · exact hcalled
  · rw [hrefused] at hreached
    cases hreached

end

end Ambry.Aci
