import Ambry.Aci.Stores
import Ambry.Aci.Wiring
import Ambry.Foundation.Lookup
import Ambry.Foundation.Run

/-!
# Credentials

A session keeps the name it logged in with, and the record under that name keeps
its password until the user is deleted. Over ideal stores the trace of a run
tells, for every session, the login it came from and the password given there.
-/

namespace Ambry.Aci

open Foundation Interpreter

/-- The record begins with this password. -/
def HasPassword (data password : Bytes) : Prop :=
  password.length ≤ 255 ∧ ∃ rest, data = field password ++ rest

namespace HasPassword

variable {data password : Bytes}

theorem getField (h : HasPassword data password) : getField data 0 = .ok password := by
  obtain ⟨hlen, rest, rfl⟩ := h
  exact getField_field [] rest (Nat.lt_succ_of_le hlen)

theorem unique {other : Bytes} (h : HasPassword data password)
    (hother : Aci.getField data 0 = .ok other) : password = other :=
  Except.ok.inj (h.getField.symm.trans hother)

theorem append (h : HasPassword data password) (more : Bytes) :
    HasPassword (data ++ more) password := by
  obtain ⟨hlen, rest, rfl⟩ := h
  exact ⟨hlen, rest ++ more, List.append_assoc _ _ _⟩

theorem field_append (hlen : password.length ≤ 255) (rest : Bytes) :
    HasPassword (field password ++ rest) password :=
  ⟨hlen, rest, rfl⟩

theorem lt_recordStart (h : HasPassword data password) (hlong : data.head? ≠ some 255) :
    password.length < recordStart data := by
  obtain ⟨hlen, rest, rfl⟩ := h
  have hne : password.length ≠ 255 := by
    rintro heq
    rw [field, heq] at hlong
    exact hlong rfl
  rw [recordStart_field hlen, if_neg hne]
  split <;> omega

theorem take_recordStart (h : HasPassword data password) (hlong : data.head? ≠ some 255) :
    HasPassword (data.take (recordStart data)) password := by
  have hlt := h.lt_recordStart hlong
  obtain ⟨hlen, rest, rfl⟩ := h
  have hfield : (field password).length ≤ recordStart (field password ++ rest) := hlt
  refine ⟨hlen, rest.take (recordStart (field password ++ rest) - (field password).length), ?_⟩
  rw [List.take_append, List.take_of_length_le hfield]

end HasPassword

/-- The fields that are written are those of the first of the names given. -/
theorem removeRoles_appends {data head : Bytes} {names iter : List Bytes} {buff : Bytes}
    {turns offset : Nat} (h : walk data (removeRolesBody names) turns offset (names, head) =
      .ok (iter, buff)) :
    ∃ written : List Bytes, names = written ++ iter ∧ buff = head ++ written.flatMap field := by
  refine walk_invariant (I := fun state => ∃ written : List Bytes,
    names = written ++ state.1 ∧ state.2 = head ++ written.flatMap field) ?_ h
    ⟨[], rfl, (List.append_nil head).symm⟩
  rintro ⟨iter, buff⟩ role ⟨iter', buff'⟩ ⟨written, hnames, hwritten⟩ hbody
  obtain rfl : buff = head ++ written.flatMap field := hwritten
  unfold removeRolesBody at hbody
  split at hbody
  · cases hbody
    exact ⟨written, hnames, rfl⟩
  · cases iter with
    | nil => cases hbody
    | cons name iter =>
      cases hbody
      refine ⟨written ++ [name], ?_, ?_⟩
      · rw [hnames, List.append_assoc, List.singleton_append]
      · rw [List.flatMap_append, List.flatMap_singleton]
        exact List.append_assoc _ _ _

/-! ### What one command does to the users and to the sessions -/

section
variable {δ ω : Type} [Database δ ω] {s s' : Interpreter Table δ ω} {cmd : Cmd} {fd : Int}
  {fn : CmdFN} {r : Result}

theorem Effect.users (heffect : Effect s cmd fd fn r s') {name data password : Bytes}
    (hget : s.users.lookup name = some data) (hpassword : HasPassword data password) :
    (∃ data', s'.users.lookup name = some data' ∧ HasPassword data' password) ∨
      (fn = .deleteUserCb ∧ r.ok ∧ ∃ rest, cmd.args = name :: rest) ∨
      fn = .removeRolesCb ∧ cmd.args.head? = some name ∧ data.head? = some 255 := by
  have hset : ∀ {username value : Bytes} {res : Ambry.Result} {users : Table},
      Table.set s.users username value = .ok (res, users) → users.lookup name = some data := by
    rintro username value res users hset
    obtain rfl | ⟨hnew, rfl⟩ := Table.set_cases hset
    · exact hget
    · rw [AList.lookup_insert_ne, hget]
      rintro rfl
      exact hnew (mem_of_lookup hget)
  have hupdate : ∀ {username value : Bytes} {res : Ambry.Result} {users : Table},
      Table.update s.users username value = .ok (res, users) →
      (username = name → HasPassword value password) →
      ∃ data', users.lookup name = some data' ∧ HasPassword data' password := by
    rintro username value res users hupdate hvalue
    obtain ⟨_, rfl⟩ | rfl := Table.update_cases hupdate
    · exact ⟨data, hget, hpassword⟩
    · rcases eq_or_ne name username with rfl | hne
      · exact ⟨value, AList.lookup_insert _, hvalue rfl⟩
      · exact ⟨data, (AList.lookup_insert_ne hne).trans hget, hpassword⟩
  cases heffect with
  | refused | answered | onWdb | opened | switched | closed | closedAll | unlinked | destroyed
  | destroyedAll | destroyedSome | roles | loggedIn | loggedOut => exact .inl ⟨data, hget, hpassword⟩
  | createdFirst hargs hlen hsize h => exact .inl ⟨data, hset h, hpassword⟩
  | createdUser hargs hlen hsize happend h => exact .inl ⟨data, hset h, hpassword⟩
  | addedRoles hargs hold hadd h =>
    refine .inl (hupdate h ?_)
    rintro rfl
    obtain rfl := Option.some.inj (hget.symm.trans hold)
    exact hpassword.append _
  | removedRoles hargs hold hwalk h =>
    by_cases hlost : cmd.args.head? = some name ∧ data.head? = some 255
    · exact .inr (.inr ⟨rfl, hlost⟩)
    refine .inl (hupdate h ?_)
    rintro rfl
    obtain rfl := Option.some.inj (hget.symm.trans hold)
    obtain ⟨written, _, rfl⟩ := removeRoles_appends hwalk
    have hshort : data.head? ≠ some 255 := fun hhead => hlost ⟨by rw [hargs, List.head?_cons], hhead⟩
    exact (hpassword.take_recordStart hshort).append _
  | @deletedUser username rest _ res users hargs h hr =>
    obtain rfl | ⟨hok, rfl⟩ := Table.erase_cases h
    · exact .inl ⟨data, hget, hpassword⟩
    · rcases eq_or_ne name username with rfl | hne
      · exact .inr (.inl ⟨rfl, hr.mpr hok, rest, hargs⟩)
      · exact .inl ⟨data, (AList.lookup_erase_ne hne).trans hget, hpassword⟩

def Recorded (users : Table) : Prop :=
  ∀ name data, users.lookup name = some data → ∃ password, HasPassword data password

theorem Recorded.insert {users : Table} (h : Recorded users) {name data password : Bytes}
    (hpassword : HasPassword data password) : Recorded (users.insert name data) := by
  rintro other data' hother
  obtain ⟨rfl, rfl⟩ | ⟨_, hother⟩ := lookup_insert_cases hother
  · exact ⟨password, hpassword⟩
  · exact h other data' hother

/-- A record without a password was there before and had none either, or it has lost it. -/
theorem Effect.recorded (heffect : Effect s cmd fd fn r s') {name data : Bytes}
    (hget : s'.users.lookup name = some data) (hnone : ∀ password, ¬ HasPassword data password) :
    ∃ old, s.users.lookup name = some old ∧
      ((∀ password, ¬ HasPassword old password) ∨
        fn = .removeRolesCb ∧ cmd.args.head? = some name ∧ old.head? = some 255) := by
  have hset : ∀ {username password rest : Bytes} {res : Ambry.Result} {users : Table},
      Table.set s.users username (field password ++ rest) = .ok (res, users) →
      password.length ≤ 255 → users.lookup name = some data → s.users.lookup name = some data := by
    rintro username password rest res users hset hlen hget
    obtain rfl | ⟨_, rfl⟩ := Table.set_cases hset
    · exact hget
    · obtain ⟨rfl, rfl⟩ | ⟨_, hold⟩ := lookup_insert_cases hget
      · exact absurd (.field_append hlen rest) (hnone password)
      · exact hold
  cases heffect with
  | refused | answered | onWdb | opened | switched | closed | closedAll | unlinked | destroyed
  | destroyedAll | destroyedSome | roles | loggedIn | loggedOut => exact ⟨data, hget, .inl hnone⟩
  | createdFirst hargs hlen hsize h => exact ⟨data, hset h hlen hget, .inl hnone⟩
  | createdUser hargs hlen hsize happend h => exact ⟨data, hset h hlen hget, .inl hnone⟩
  | addedRoles hargs hold hadd h =>
    obtain ⟨_, rfl⟩ | rfl := Table.update_cases h
    · exact ⟨data, hget, .inl hnone⟩
    · obtain ⟨rfl, rfl⟩ | ⟨_, hget⟩ := lookup_insert_cases hget
      · exact ⟨_, hold, .inl fun password hpassword => hnone password (hpassword.append _)⟩
      · exact ⟨data, hget, .inl hnone⟩
  | @removedRoles username old _ _ _ _ _ hargs hold hwalk h =>
    obtain ⟨_, rfl⟩ | rfl := Table.update_cases h
    · exact ⟨data, hget, .inl hnone⟩
    · obtain ⟨rfl, rfl⟩ | ⟨_, hget⟩ := lookup_insert_cases hget
      · refine ⟨old, hold, ?_⟩
        obtain ⟨written, _, rfl⟩ := removeRoles_appends hwalk
        by_cases hlong : old.head? = some 255
        · exact .inr ⟨rfl, by rw [hargs, List.head?_cons], hlong⟩
        · exact .inl fun password hpassword =>
            hnone password ((hpassword.take_recordStart hlong).append _)
      · exact ⟨data, hget, .inl hnone⟩
  | deletedUser hargs h hr =>
    obtain rfl | ⟨_, rfl⟩ := Table.erase_cases h
    · exact ⟨data, hget, .inl hnone⟩
    · exact ⟨data, (lookup_erase_some hget).2, .inl hnone⟩

/-- After `delete_user` there is no such user. -/
theorem Effect.deleted (heffect : Effect s cmd fd .deleteUserCb r s') (hok : r.ok) {name : Bytes}
    {rest : List Bytes} (hargs : cmd.args = name :: rest) : s'.users.lookup name = none := by
  cases heffect with
  | refused hr => exact absurd hok hr
  | answered hfn => exact absurd hfn (by decide)
  | onWdb hfn => exact absurd hfn (by decide)
  | switched hfn => exact absurd hfn (by decide)
  | roles hfn => exact absurd hfn (by decide)
  | deletedUser hargs' herase =>
    cases hargs.symm.trans hargs'
    exact Table.lookup_of_erase herase

/-- A length byte of 255 makes the position of the first role zero: the record that `remove_roles`
leaves begins with a name from the command in place of the password. -/
theorem removeRoles_loses_password {username data password : Bytes} {names : List Bytes}
    (hargs : cmd.args = username :: names) (hget : s.users.lookup username = some data)
    (hpassword : HasPassword data password) (hlong : password.length = 255)
    (h : removeRolesCb cmd fd s = .ok (r, s')) (hok : r.ok) :
    ∃ written, written <+: names ∧ s'.users.lookup username = some (written.flatMap field) := by
  have heffect := removeRolesCb_effect h
  cases heffect with
  | refused hr => exact absurd hok hr
  | answered hfn => exact absurd hfn (by decide)
  | onWdb hfn => exact absurd hfn (by decide)
  | switched hfn => exact absurd hfn (by decide)
  | roles hfn => exact absurd hfn (by decide)
  | removedRoles hargs' hold hwalk hupdate =>
    cases hargs.symm.trans hargs'
    cases hget.symm.trans hold
    obtain ⟨written, hnames, rfl⟩ := removeRoles_appends hwalk
    refine ⟨written, ⟨_, hnames.symm⟩, ?_⟩
    obtain ⟨hlen, rest, rfl⟩ := hpassword
    have hstart : recordStart (field password ++ rest) = 0 := by
      rw [recordStart_field hlen, if_neg (by omega), if_pos hlong]
    rw [hstart, List.take_zero, List.nil_append] at hupdate
    obtain ⟨hnot, _⟩ | rfl := Table.update_cases hupdate
    · exact absurd (mem_of_lookup hget) hnot
    · exact AList.lookup_insert _

omit [Database δ ω] in
theorem lookup_insert_wdb {logins : AList fun _ : Int => Login} {login login' : Login}
    {wdb : Option Address} {other : Int} (hlogin : logins.lookup fd = some login)
    (h : (logins.insert fd { login with wdb }).lookup other = some login') :
    ∃ l, logins.lookup other = some l ∧ l.name = login'.name := by
  obtain ⟨rfl, rfl⟩ | ⟨_, h⟩ := lookup_insert_cases h
  · exact ⟨login, hlogin, rfl⟩
  · exact ⟨login', h, rfl⟩

omit [Database δ ω] in
theorem lookup_released {login login' : Login} {addr : Address} {other : Int}
    (hlogin : s.logins.lookup fd = some login)
    (h : (released s fd login addr).lookup other = some login') :
    ∃ l, s.logins.lookup other = some l ∧ l.name = login'.name := by
  rw [released] at h
  split at h
  · exact lookup_insert_wdb hlogin h
  · exact ⟨login', h, rfl⟩

theorem Effect.logins (heffect : Effect s cmd fd fn r s') {other : Int} {login : Login}
    (hlogin : s'.logins.lookup other = some login) :
    (∃ l, s.logins.lookup other = some l ∧ l.name = login.name) ∨
      other = fd ∧ fn = .loginCb ∧ r.ok ∧ s'.users = s.users ∧ ∃ password rest data,
        cmd.args = login.name :: password :: rest ∧ s.users.lookup login.name = some data ∧
          getField data 0 = .ok password := by
  cases heffect with
  | refused | answered | onWdb | unlinked | destroyedSome | roles | createdFirst | createdUser
  | addedRoles | removedRoles | deletedUser => exact .inl ⟨login, hlogin, rfl⟩
  | opened _ _ _ _ _ hl => exact .inl (lookup_insert_wdb hl hlogin)
  | switched _ _ _ hl => exact .inl (lookup_insert_wdb hl hlogin)
  | closedAll _ hl => exact .inl (lookup_insert_wdb hl hlogin)
  | destroyedAll _ _ hl => exact .inl (lookup_insert_wdb hl hlogin)
  | closed _ _ _ hl => exact .inl (lookup_released hl hlogin)
  | destroyed _ _ _ _ hl => exact .inl (lookup_released hl hlogin)
  | loggedIn hargs hnew hget hfield =>
    obtain ⟨rfl, rfl⟩ | ⟨_, hlogin⟩ := lookup_insert_cases hlogin
    · exact .inr ⟨rfl, rfl, rfl, rfl, _, _, _, hargs, hget, hfield⟩
    · exact .inl ⟨login, hlogin, rfl⟩
  | loggedOut => exact .inl ⟨login, (lookup_erase_some hlogin).2, rfl⟩

theorem Effect.login_ok (heffect : Effect s cmd fd .loginCb r s') (hok : r.ok) : fd ∉ s.logins := by
  cases heffect with
  | refused hr => exact absurd hok hr
  | answered hfn => exact absurd hfn (by decide)
  | onWdb hfn => exact absurd hfn (by decide)
  | switched hfn => exact absurd hfn (by decide)
  | roles hfn => exact absurd hfn (by decide)
  | loggedIn _ hnew => exact hnew

end

/-! ### Histories -/

def LogsIn (fd : Int) (e : Event × Result) : Prop :=
  ∃ args, e.1 = .command fd ⟨str "login", args⟩ ∧ e.2.ok

def Deletes (name : Bytes) (e : Event × Result) : Prop :=
  ∃ fd rest, e.1 = .command fd ⟨str "delete_user", name :: rest⟩ ∧ e.2.ok

/-- The last login of the session was under this name and with this password, and the events
`after` came after it. -/
def CameFrom (trace : List (Event × Result)) (fd : Int) (name password : Bytes)
    (after : List (Event × Result)) : Prop :=
  ∃ before rest r,
    trace = before ++ (.command fd ⟨str "login", name :: password :: rest⟩, r) :: after ∧ r.ok ∧
      ∀ e ∈ after, ¬ LogsIn fd e

theorem CameFrom.snoc {trace after : List (Event × Result)} {fd : Int} {name password : Bytes}
    (h : CameFrom trace fd name password after) {e : Event × Result} (he : ¬ LogsIn fd e) :
    CameFrom (trace ++ [e]) fd name password (after ++ [e]) := by
  obtain ⟨before, rest, r, rfl, hr, hafter⟩ := h
  refine ⟨before, rest, r, by rw [List.append_assoc]; rfl, hr, ?_⟩
  rintro e' he'
  obtain he' | he' := List.mem_append.mp he'
  · exact hafter e' he'
  · rw [List.mem_singleton.mp he']
    exact he

theorem CameFrom.mem {trace after : List (Event × Result)} {fd : Int} {name password : Bytes}
    (h : CameFrom trace fd name password after) {e : Event × Result} (he : e ∈ after) :
    e ∈ trace := by
  obtain ⟨before, rest, r, rfl, _⟩ := h
  exact List.mem_append_right _ (List.mem_cons_of_mem _ he)

section
variable {δ ω : Type} [Database δ ω] [Machine] {start s s' : Interpreter Table δ ω}
  {trace : List (Event × Result)} {r : Result} {name : Bytes}

/-- `remove_roles` is executed for this user while the password has 255 bytes. -/
def LosesPassword (name : Bytes) (s : Interpreter Table δ ω) : Event → Prop
  | .command fd cmd => ∃ ch ∈ s.ct.lookup cmd.cmd, s.Passes cmd fd ch ∧ ch.fn = .removeRolesCb ∧
      cmd.args.head? = some name ∧ ∃ data ∈ s.users.lookup name, data.head? = some 255
  | .hangup _ => False

/-- The password of this user has been lost, and the user has not been deleted since. -/
def Lost (start : Interpreter Table δ ω) (trace : List (Event × Result)) (name : Bytes) : Prop :=
  ∃ before e after s, trace = before ++ e :: after ∧
    Run (Steps next fun _ _ => True) start before s ∧ LosesPassword name s e.1 ∧
    ∀ e' ∈ after, ¬ Deletes name e'

theorem Lost.snoc (h : Lost start trace name) {e : Event × Result} (he : ¬ Deletes name e) :
    Lost start (trace ++ [e]) name := by
  obtain ⟨before, lost, after, s, rfl, hrun, hloses, hafter⟩ := h
  refine ⟨before, lost, after ++ [e], s, ?_, hrun, hloses, ?_⟩
  · rw [List.append_assoc, List.cons_append]
  · intro e' he'
    obtain he' | he' := List.mem_append.mp he'
    · exact hafter e' he'
    · rw [List.mem_singleton.mp he']
      exact he

/-- A run that never loses the password has not lost it. -/
theorem not_lost (hrun : Run (Steps next fun s e => ¬ LosesPassword name s e) start trace s) :
    ¬ Lost start trace name := by
  rintro ⟨before, e, after, lost, rfl, hbefore, hloses, _⟩
  obtain ⟨m, _, hreached, ⟨hkeeps, _⟩, _⟩ := hrun.split
  obtain rfl := hreached.functional hbefore fun _ _ _ _ hs hs' => hs.functional hs'
  exact hkeeps hloses

structure Vouched (start : Interpreter Table δ ω) (trace : List (Event × Result))
    (s : Interpreter Table δ ω) : Prop where
  wired : Wired s.ct
  reached : Run (Steps next fun _ _ => True) start trace s
  recorded : ∀ name data, s.users.lookup name = some data →
    (∃ password, HasPassword data password) ∨ Lost start trace name
  logins : ∀ fd login, s.logins.lookup fd = some login →
    ∃ password after, CameFrom trace fd login.name password after ∧
      ((∀ e ∈ after, ¬ Deletes login.name e) → ¬ Lost start trace login.name →
        ∃ data, s.users.lookup login.name = some data ∧ HasPassword data password)

theorem Vouched.session (h : Vouched start trace s) {fd : Int} {login login' : Login}
    (hlogin : s.logins.lookup fd = some login) (hname : login.name = login'.name)
    {e : Event × Result} (he : ¬ LogsIn fd e)
    (husers : ∀ data password, s.users.lookup login.name = some data → HasPassword data password →
      (∃ data', s'.users.lookup login.name = some data' ∧ HasPassword data' password) ∨
        Deletes login.name e ∨ LosesPassword login.name s e.1) :
    ∃ password after, CameFrom (trace ++ [e]) fd login'.name password after ∧
      ((∀ e ∈ after, ¬ Deletes login'.name e) → ¬ Lost start (trace ++ [e]) login'.name →
        ∃ data, s'.users.lookup login'.name = some data ∧ HasPassword data password) := by
  obtain ⟨password, after, hcame, hkept⟩ := h.logins fd login hlogin
  rw [← hname]
  refine ⟨password, after ++ [e], hcame.snoc he, fun hdel hlost => ?_⟩
  have hthis : ¬ Deletes login.name e := hdel e (List.mem_append_right _ List.mem_cons_self)
  obtain ⟨data, hget, hpassword⟩ := hkept (fun e' he' => hdel e' (List.mem_append_left _ he'))
    fun hbefore => hlost (hbefore.snoc hthis)
  obtain hstays | hdeletes | hloses := husers data password hget hpassword
  · exact hstays
  · exact absurd hdeletes hthis
  · exact absurd ⟨trace, e, [], s, rfl, h.reached, hloses, nofun⟩ hlost

theorem Vouched.command (h : Vouched start trace s) {fd : Int} {cmd : Cmd} {ch : CmdHandle}
    (hpasses : s.Passes cmd fd ch) (heffect : Effect s cmd fd ch.fn r s')
    (hstep : Steps next (fun _ _ => True) s (.command fd cmd, r) s') :
    Vouched start (trace ++ [(.command fd cmd, r)]) s' := by
  have hwired : ∀ name fn, (name, fn) ∈ wiring → (cmd.cmd = name ↔ ch.fn = fn) :=
    fun name fn hmem => h.wired.name_iff hpasses.lookup hmem
  have hloses : ∀ {name data}, ch.fn = .removeRolesCb → cmd.args.head? = some name →
      s.users.lookup name = some data → data.head? = some 255 →
      LosesPassword name s (.command fd cmd) :=
    fun hfn hname hget hhead => ⟨ch, hpasses.lookup, hpasses, hfn, hname, _, hget, hhead⟩
  refine ⟨heffect.wired h.wired hpasses.lookup, h.reached.snoc hstep, ?_, ?_⟩
  · intro name data hget
    by_cases hpassword : ∃ password, HasPassword data password
    · exact .inl hpassword
    obtain ⟨old, hold, hbefore | ⟨hfn, hname, hhead⟩⟩ :=
      heffect.recorded hget (not_exists.mp hpassword)
    · refine .inr (((h.recorded name old hold).resolve_left (not_exists.mpr hbefore)).snoc ?_)
      rintro ⟨fd', rest, hevent, hok⟩
      cases hevent
      rw [(hwired (str "delete_user") .deleteUserCb (by decide)).mp rfl] at heffect
      cases (heffect.deleted hok rfl).symm.trans hget
    · exact .inr ⟨trace, _, [], s, rfl, h.reached, hloses hfn hname hold hhead, nofun⟩
  · rintro other login' hlogin'
    obtain ⟨login, hlogin, hname⟩ |
      ⟨rfl, hfn, hok, husers, password, rest, data, hargs, hget, hfield⟩ := heffect.logins hlogin'
    · refine h.session hlogin hname ?_ ?_
      · rintro ⟨args, hevent, hok⟩
        cases hevent
        rw [(hwired (str "login") .loginCb (by decide)).mp rfl] at heffect
        exact heffect.login_ok hok (mem_of_lookup hlogin)
      · rintro data password hget hpassword
        obtain hstays | ⟨hfn, hok, rest, hargs⟩ | ⟨hfn, hname, hhead⟩ := heffect.users hget hpassword
        · exact .inl hstays
        · have hcmd : cmd.cmd = str "delete_user" := (hwired _ _ (by decide)).mpr hfn
          refine .inr (.inl ⟨fd, rest, ?_, hok⟩)
          rw [← hcmd, ← hargs]
        · exact .inr (.inr (hloses hfn hname hget hhead))
    · have hcmd : cmd.cmd = str "login" := (hwired _ _ (by decide)).mpr hfn
      refine ⟨password, [], ⟨trace, rest, r, ?_, hok, nofun⟩, fun _ hlost => ⟨data, ?_, ?_⟩⟩
      · rw [← hcmd, ← hargs]
      · rw [husers]
        exact hget
      · obtain ⟨password', hpassword⟩ := (h.recorded _ data hget).resolve_right fun hbefore => by
          apply hlost (hbefore.snoc _)
          rintro ⟨_, _, hevent, _⟩
          cases hevent
          have hne : str "delete_user" ≠ str "login" := by decide
          exact hne hcmd
        rw [hpassword.unique hfield] at hpassword
        exact hpassword

/-- An event that leaves the users as they are, and lets nobody in. -/
theorem Vouched.unchanged (h : Vouched start trace s) {e : Event} (hwired : Wired s'.ct)
    (hstep : Steps next (fun _ _ => True) s (e, r) s') (husers : s'.users = s.users)
    (hlogins : ∀ fd login, s'.logins.lookup fd = some login → s.logins.lookup fd = some login)
    (hlogin : ∀ fd, ¬ LogsIn fd (e, r)) (hdel : ∀ name, ¬ Deletes name (e, r)) :
    Vouched start (trace ++ [(e, r)]) s' := by
  refine ⟨hwired, h.reached.snoc hstep, ?_, ?_⟩
  · intro name data hget
    rw [husers] at hget
    exact (h.recorded name data hget).imp_right fun hlost => hlost.snoc (hdel name)
  · intro fd login hfd
    refine h.session (hlogins fd login hfd) rfl (hlogin fd) fun data password hget hpassword => ?_
    exact .inl ⟨data, husers ▸ hget, hpassword⟩

theorem Vouched.handle (h : Vouched start trace s) {e : Event} (hstep : s.handle e = .ok (r, s')) :
    Vouched start (trace ++ [(e, r)]) s' := by
  have hnext : Steps next (fun _ _ => True) s (e, r) s' := ⟨trivial, toOption_eq_some.mpr hstep⟩
  obtain ⟨fd, cmd, rfl, ⟨hr, rfl⟩ | ⟨ch, hpasses, heffect⟩⟩ | ⟨fd, rfl, rfl⟩ := handle_cases hstep
  · refine h.unchanged h.wired hnext rfl (fun _ _ hfd => hfd) ?_ ?_
    · rintro fd ⟨args, _, hok⟩
      exact hr hok
    · rintro name ⟨fd, rest, _, hok⟩
      exact hr hok
  · exact h.command hpasses heffect hnext
  · refine h.unchanged h.wired hnext rfl (fun _ _ hfd => (lookup_erase_some hfd).2) ?_ ?_
    · rintro fd ⟨args, hevent, _⟩
      cases hevent
    · rintro name ⟨fd, rest, hevent, _⟩
      cases hevent

theorem vouched_start {dbt : DBTable δ} {users roles : Table} {world : ω}
    (hstart : Interpreter.new dbt users roles world = .ok start) (hrecorded : Recorded users) :
    Vouched start.initCommands [] start.initCommands := by
  have hwired := wired_start hstart
  obtain ⟨⟨res, roles'⟩, _, hstart⟩ := bind_eq_ok hstart
  cases hstart
  refine ⟨hwired, .nil, fun name data hget => .inl (hrecorded name data hget), ?_⟩
  rintro fd login hlogin
  cases hlogin

/-- Until a user is deleted, the sessions of the user have given the password of the record, unless
the record has lost it. -/
theorem password_proved {dbt : DBTable δ} {users roles : Table} {world : ω}
    (hstart : Interpreter.new dbt users roles world = .ok start) (hrecorded : Recorded users)
    (hrun : Run (Steps next fun _ _ => True) start.initCommands trace s) :
    ∀ fd login, s.logins.lookup fd = some login →
      ∃ password after, CameFrom trace fd login.name password after ∧
        ((∀ e ∈ after, ¬ Deletes login.name e) → ¬ Lost start.initCommands trace login.name →
          ∀ data, s.users.lookup login.name = some data → getField data 0 = .ok password) := by
  have hvouched : Vouched start.initCommands trace s := by
    apply hrun.history (vouched_start hstart hrecorded)
    rintro t s ⟨e, r⟩ s' h ⟨_, hnext⟩
    exact h.handle (toOption_eq_some.mp hnext)
  rintro fd login hlogin
  obtain ⟨password, after, hcame, hkept⟩ := hvouched.logins fd login hlogin
  refine ⟨password, after, hcame, fun hdel hlost data hget => ?_⟩
  obtain ⟨data', hget', hpassword⟩ := hkept hdel hlost
  obtain rfl := Option.some.inj (hget'.symm.trans hget)
  exact hpassword.getField

instance LosesPassword.decidable (name : Bytes) (s : Interpreter Table δ ω) :
    ∀ e, Decidable (LosesPassword name s e)
  | .command fd cmd => inferInstanceAs (Decidable (∃ ch ∈ s.ct.lookup cmd.cmd,
      s.Passes cmd fd ch ∧ ch.fn = .removeRolesCb ∧ cmd.args.head? = some name ∧
      ∃ data ∈ s.users.lookup name, data.head? = some 255))
  | .hangup _ => inferInstanceAs (Decidable False)

end

section
attribute [local instance] littleEndian

theorem recorded_rootOnly : Recorded rootOnly :=
  Recorded.insert (fun _ _ h => by cases h) (.field_append (by decide) _)

/-- A session of a user whose record has been extended since. -/
theorem password_proved_bob : ∃ trace s,
    Run (Steps next fun _ _ => True) (serverOn rootOnly).initCommands trace s ∧
      s.logins.lookup 2 = some ⟨str "bob", none⟩ ∧
      s.users.lookup (str "bob") = some (field (str "p1") ++ field (str "admin")) ∧
      ∃ after, CameFrom trace 2 (str "bob") (str "p1") after := by
  have hrun : ∃ trace s,
      Run (Steps next fun s e => ¬ LosesPassword (str "bob") s e) (serverOn rootOnly).initCommands
          trace s ∧
        (trace.map Prod.fst =
          [line 1 "login" ["root", "pw"], line 1 "create_user" ["bob", "p1"],
            line 2 "login" ["bob", "p1"], line 1 "add_roles" ["bob", "admin"]] ∧
        s.logins.lookup 2 = some ⟨str "bob", none⟩ ∧
        s.users.lookup (str "bob") = some (field (str "p1") ++ field (str "admin"))) :=
    exists_run
      [line 1 "login" ["root", "pw"], line 1 "create_user" ["bob", "p1"],
        line 2 "login" ["bob", "p1"], line 1 "add_roles" ["bob", "admin"]]
      (by decide +kernel) (by decide +kernel)
  obtain ⟨trace, s, hkeeps, htrace, hlogin, hget⟩ := hrun
  have hrun : Run (Steps next fun _ _ => True) (serverOn rootOnly).initCommands trace s :=
    hkeeps.mono fun _ _ _ hs => ⟨trivial, hs.2⟩
  obtain ⟨password, after, hcame, hproved⟩ :=
    password_proved (new_serverOn rootOnly) recorded_rootOnly hrun 2 _ hlogin
  have hdel : ∀ e ∈ after, ¬ Deletes (str "bob") e := by
    rintro ⟨e, r⟩ he ⟨fd, rest, rfl, _⟩
    have hmem := List.mem_map_of_mem (f := Prod.fst) (hcame.mem he)
    have hlogin : str "delete_user" ≠ str "login" := by decide
    have hcreate : str "delete_user" ≠ str "create_user" := by decide
    have hadd : str "delete_user" ≠ str "add_roles" := by decide
    rw [htrace] at hmem
    simp [line, hlogin, hcreate, hadd] at hmem
  have hfield := hproved hdel (not_lost hkeeps) _ hget
  obtain rfl : password = str "p1" := Except.ok.inj (hfield.symm.trans (by decide))
  exact ⟨trace, s, hrun, hlogin, hget, after, hcame⟩

/-- The user of a session is deleted and created again with another password. -/
theorem password_not_proved : ¬ ∀ trace s,
    Run (Steps next fun _ _ => True) (serverOn rootOnly).initCommands trace s →
      ∀ fd login data, s.logins.lookup fd = some login → s.users.lookup login.name = some data →
        ∃ password after, CameFrom trace fd login.name password after ∧
          getField data 0 = .ok password := by
  have hrun : ∃ trace s,
      Run (Steps next fun _ _ => True) (serverOn rootOnly).initCommands trace s ∧
        (trace.map Prod.fst =
          [line 1 "login" ["root", "pw"], line 1 "create_user" ["bob", "p1"],
            line 2 "login" ["bob", "p1"], line 1 "delete_user" ["bob"],
            line 1 "create_user" ["bob", "p2"]] ∧
        s.logins.lookup 2 = some ⟨str "bob", none⟩ ∧
        s.users.lookup (str "bob") = some (field (str "p2"))) :=
    exists_run
      [line 1 "login" ["root", "pw"], line 1 "create_user" ["bob", "p1"],
        line 2 "login" ["bob", "p1"], line 1 "delete_user" ["bob"],
        line 1 "create_user" ["bob", "p2"]]
      (by decide +kernel) (by decide +kernel)
  rintro hall
  obtain ⟨trace, s, hrun, htrace, hlogin, hget⟩ := hrun
  obtain ⟨password, after, ⟨before, rest, r, rfl, _⟩, hfield⟩ := hall trace s hrun 2 _ _ hlogin hget
  have hp2 : password = str "p2" := Except.ok.inj (hfield.symm.trans (by decide))
  have hmem : Event.command 2 ⟨str "login", str "bob" :: password :: rest⟩ ∈
      (before ++ (.command 2 ⟨str "login", str "bob" :: password :: rest⟩, r) :: after).map
        Prod.fst := by
    rw [List.map_append, List.map_cons]
    exact List.mem_append_right _ List.mem_cons_self
  rw [htrace, hp2] at hmem
  have hp1 : str "p2" = str "p1" ∧ rest = [] := by simpa [line] using hmem
  exact absurd hp1.1 (by decide)

end

end Ambry.Aci
