import Ambry.Aci.Credentials
import Ambry.Aci.UserCreation
import Ambry.Aci.WorkingDb

/-!
# Sessions without a login

A session that is not logged in has no slot for a working database. The flags of
a command keep it out of every handler that uses the slot but one: `switch` asks
for no flag and for no working database, and writes the slot as soon as its
argument names an open database.
-/

namespace Ambry.Aci

open Foundation Interpreter

/-! ### Readable records -/

def Readable (data : Bytes) : Prop := ∃ password, getField data 0 = .ok password

theorem readable_iff {data : Bytes} : Readable data ↔ (data.headD 0).toNat ≤ data.length := by
  cases data with
  | nil => exact iff_of_true ⟨[], rfl⟩ (le_refl _)
  | cons b rest =>
    have hfield : getField (b :: rest) 0 =
        if ((rest ++ [0]).take b.toNat).length = b.toNat then .ok ((rest ++ [0]).take b.toNat)
        else .error .undefined := rfl
    rw [Readable, hfield, List.length_take, List.length_append, List.length_singleton,
      List.length_cons, List.headD_cons]
    split
    · exact iff_of_true ⟨_, rfl⟩ (by omega)
    · exact iff_of_false (by rintro ⟨_, h⟩; cases h) (by omega)

theorem readable_field (s rest : Bytes) : Readable (field s ++ rest) := by
  rw [readable_iff, field, List.cons_append, List.headD_cons, List.length_cons, List.length_append,
    UInt8.toNat_ofNat']
  have hle := Nat.mod_le s.length (2 ^ 8)
  omega

theorem Readable.append {data : Bytes} (h : Readable data) (names : List Bytes) :
    Readable (data ++ names.flatMap field) := by
  cases data with
  | nil =>
    cases names with
    | nil => exact h
    | cons name names =>
      rw [List.nil_append, List.flatMap_cons]
      exact readable_field name _
  | cons b rest =>
    rw [readable_iff] at h ⊢
    rw [List.cons_append, List.headD_cons, List.length_cons, List.length_append]
    rw [List.headD_cons, List.length_cons] at h
    omega

theorem Readable.take_recordStart {data : Bytes} (h : Readable data) :
    Readable (data.take (recordStart data)) := by
  cases hstart : recordStart data with
  | zero => exact readable_iff.mpr (Nat.zero_le _)
  | succ n =>
    cases data with
    | nil => exact readable_iff.mpr (Nat.zero_le _)
    | cons b rest =>
      have hb := b.toNat_lt
      rw [readable_iff] at h ⊢
      rw [List.take_succ_cons, List.headD_cons, List.length_cons, List.length_take]
      rw [List.headD_cons, List.length_cons] at h
      have hle : b.toNat ≤ n + 1 := by
        rw [recordStart_cons] at hstart
        split at hstart
        · omega
        split at hstart <;> omega
      omega

def AllReadable (users : Table) : Prop := ∀ name data, users.lookup name = some data → Readable data

theorem AllReadable.insert {users : Table} (h : AllReadable users) {data : Bytes}
    (hdata : Readable data) (name : Bytes) : AllReadable (users.insert name data) := by
  rintro other data' hother
  obtain ⟨rfl, rfl⟩ | ⟨_, hother⟩ := lookup_insert_cases hother
  · exact hdata
  · exact h other data' hother

section
variable {δ ω : Type} [Database δ ω] {s s' : Interpreter Table δ ω} {cmd : Cmd} {fd : Int}
  {fn : CmdFN} {r : Result}

theorem Effect.readable (heffect : Effect s cmd fd fn r s') (h : AllReadable s.users) :
    AllReadable s'.users := by
  cases heffect with
  | refused | answered | onWdb | opened | switched | closed | closedAll | unlinked | destroyed
  | destroyedAll | destroyedSome | roles | loggedIn | loggedOut => exact h
  | createdFirst hargs hlen hsize hset =>
    obtain rfl | ⟨_, rfl⟩ := Table.set_cases hset
    · exact h
    · exact h.insert (readable_field _ _) _
  | createdUser hargs hlen hsize happend hset =>
    obtain rfl | ⟨_, rfl⟩ := Table.set_cases hset
    · exact h
    · exact h.insert (readable_field _ _) _
  | addedRoles hargs hget hadd hupdate =>
    obtain ⟨_, rfl⟩ | rfl := Table.update_cases hupdate
    · exact h
    · rw [(addRoles_eq_some hadd).1]
      exact h.insert ((h _ _ hget).append _) _
  | removedRoles hargs hget hwalk hupdate =>
    obtain ⟨_, rfl⟩ | rfl := Table.update_cases hupdate
    · exact h
    · obtain ⟨written, _, rfl⟩ := removeRoles_appends hwalk
      exact h.insert ((h _ _ hget).take_recordStart.append written) _
  | deletedUser hargs herase hr =>
    obtain rfl | ⟨_, rfl⟩ := Table.erase_cases herase
    · exact h
    · exact fun other data hother => h other data (lookup_erase_some hother).2

theorem readable_handle [Machine] {e : Event} (h : AllReadable s.users)
    (hstep : s.handle e = .ok (r, s')) : AllReadable s'.users := by
  obtain ⟨fd, cmd, rfl, ⟨_, rfl⟩ | ⟨ch, _, heffect⟩⟩ | ⟨fd, rfl, rfl⟩ := handle_cases hstep
  · exact h
  · exact heffect.readable h
  · exact h

end

/-! ### Commands without flags -/

/-- The functions that use the database in the slot. -/
def CmdFN.slotReaders : List CmdFN :=
  [.workingDbCb, .cacheModeCb, .setCb, .updateCb, .getCb, .eraseCb]

theorem tail_guarded : ∀ e ∈ (commandTable 0).tail,
    (e.2.perms = 0 → (e.1 = str "login" ∧ e.2.fn = .loginCb ∧ e.2.arity = 2) ∨
      e.2.fn = .logoutCb ∨ e.1 = str "switch" ∧ e.2.fn = .switchCb ∧ e.2.arity = 1) ∧
    (e.2.fn ∈ CmdFN.slotReaders → e.2.expectWdb ∧ e.2.perms ≠ 0) := by
  decide +kernel

theorem tail_free : ∀ e ∈ (commandTable 0).tail, e.1 = str "login" ∨ e.1 = str "switch" →
    e.2.fn = (if e.1 = str "login" then .loginCb else .switchCb) ∧
      e.2.arity = (if e.1 = str "login" then 2 else 1) ∧ e.2.expectWdb = false ∧ e.2.perms = 0 := by
  decide +kernel

section
variable {ct : CmdTable} {name : Bytes} {ch : CmdHandle}

/-- The commands that a session may give without a login. -/
theorem Tabled.unguarded (h : Tabled ct) (hlookup : ct.lookup name = some ch) (hperms : ch.perms = 0) :
    (ch.fn = .createUserCb ∧ ch.arity = 2) ∨
      (name = str "login" ∧ ch.fn = .loginCb ∧ ch.arity = 2) ∨
      ch.fn = .logoutCb ∨ name = str "switch" ∧ ch.fn = .switchCb ∧ ch.arity = 1 := by
  obtain ⟨perms, hmem⟩ := h.entry name ch hlookup
  obtain hhead | htail := List.mem_cons.mp hmem
  · cases hhead
    exact .inl ⟨rfl, rfl⟩
  · exact .inr ((tail_guarded _ htail).1 hperms)

/-- Two of them are open to every session, for as long as the server runs. -/
theorem Tabled.free (h : Tabled ct) (hname : name = str "login" ∨ name = str "switch") :
    ∃ ch, ct.lookup name = some ch ∧
      ch.fn = (if name = str "login" then .loginCb else .switchCb) ∧
      ch.arity = (if name = str "login" then 2 else 1) ∧ ch.expectWdb = false ∧ ch.perms = 0 := by
  have hmem : name ∈ wiring.map Prod.fst := by
    obtain rfl | rfl := hname
    · decide
    · decide
  obtain ⟨ch, hlookup⟩ := mem_iff_lookup.mp (h.total name hmem)
  obtain ⟨perms, hmem⟩ := h.entry name ch hlookup
  obtain hhead | htail := List.mem_cons.mp hmem
  · have hne : str "create_user" ≠ str "login" ∧ str "create_user" ≠ str "switch" := by decide
    have hcreate : name = str "create_user" := congrArg Prod.fst hhead
    rw [hcreate] at hname
    exact absurd hname (not_or.mpr hne)
  · exact ⟨ch, hlookup, tail_free _ htail hname⟩

theorem Tabled.slotReader (h : Tabled ct) (hlookup : ct.lookup name = some ch)
    (hfn : ch.fn ∈ CmdFN.slotReaders) : ch.expectWdb ∧ ch.perms ≠ 0 := by
  obtain ⟨perms, hmem⟩ := h.entry name ch hlookup
  obtain hhead | htail := List.mem_cons.mp hmem
  · cases hhead
    have hnot : CmdFN.createUserCb ∉ CmdFN.slotReaders := by decide
    exact absurd hfn hnot
  · exact (tail_guarded _ htail).2 hfn

end

section
variable {δ ω : Type} [Database δ ω] [Machine] {s : Interpreter Table δ ω} {cmd : Cmd} {fd : Int}

omit [Database δ ω] in
theorem calculatePerms_stranger (hlogin : fd ∉ s.logins) (needed : FlagT) :
    s.calculatePerms fd needed = .ok (decide (needed = 0)) := by
  have hnone := AList.lookup_eq_none.mpr hlogin
  rw [calculatePerms]
  split
  case isTrue hzero => simp [hzero]
  case isFalse hneeded => simp only [hnone, hneeded, decide_false]

omit [Database δ ω] [Machine] in
theorem two_args {args : List Bytes} (h : 2 ≤ args.length) :
    ∃ first second rest, args = first :: second :: rest := by
  match args, h with
  | first :: second :: rest, _ => exact ⟨first, second, rest, rfl⟩

omit [Database δ ω] [Machine] in
theorem createUserCb_ok (s : Interpreter Table δ ω) (fd : Int) {username password : Bytes}
    {rest : List Bytes} (hargs : cmd.args = username :: password :: rest) :
    ∃ r s', createUserCb cmd fd s = .ok (r, s') := by
  have hset : ∀ (users : Table) (key value : Bytes), ∃ out, Store.set users key value = .ok out := by
    intro users key value
    change ∃ out, Table.set users key value = .ok out
    rw [Table.set]
    split <;> exact ⟨_, rfl⟩
  simp only [createUserCb, hargs]
  split
  · exact ⟨_, _, rfl⟩
  split
  · obtain ⟨⟨res, users⟩, h⟩ := hset (s.setPerms (str "create_user") ADMIN).users username
      (field password ++ field (str "admin"))
    rw [h]
    exact ⟨_, _, rfl⟩
  split
  · exact ⟨_, _, rfl⟩
  · rename_i buff _
    obtain ⟨⟨res, users⟩, h⟩ := hset s.users username buff
    rw [h]
    exact ⟨_, _, rfl⟩

omit [Database δ ω] [Machine] in
theorem loginCb_ok (hlogin : fd ∉ s.logins) {username password : Bytes} {rest : List Bytes}
    (hargs : cmd.args = username :: password :: rest) : (∃ r s', loginCb cmd fd s = .ok (r, s')) ↔
      ∀ data, s.users.lookup username = some data → Readable data := by
  have hget : Store.get s.users username = s.users.lookup username := rfl
  rw [loginCb, if_neg hlogin, hargs]
  dsimp only
  rw [hget]
  cases s.users.lookup username with
  | none => exact iff_of_true ⟨_, _, rfl⟩ fun data hdata => by cases hdata
  | some data =>
    constructor
    · rintro ⟨r, s', h⟩ data' hdata
      cases hdata
      obtain ⟨userpass, hfield, _⟩ := bind_eq_ok h
      exact ⟨userpass, hfield⟩
    · intro hreadable
      obtain ⟨userpass, hfield⟩ := hreadable data rfl
      simp only [hfield, bind, Except.bind]
      split
      · exact ⟨_, _, rfl⟩
      · exact ⟨_, _, rfl⟩

omit [Database δ ω] [Machine] in
theorem switchCb_stranger (hlogin : fd ∉ s.logins) {name : Bytes} {rest : List Bytes}
    (hargs : cmd.args = name :: rest) : switchCb cmd fd s =
      if name ∈ s.dbt then .error .undefined else .ok (keyNotFnd, s) := by
  have hnone := AList.lookup_eq_none.mpr hlogin
  simp only [switchCb, hargs, front, bind, Except.bind]
  split
  · rename_i hdb
    rw [if_neg (AList.lookup_eq_none.mp hdb)]
    rfl
  · rename_i node hdb
    rw [if_pos (mem_of_lookup hdb), setWdb, hnone]

theorem interpret_free (htable : Tabled s.ct) (hlogin : fd ∉ s.logins)
    (hcmd : cmd.cmd = str "login" ∨ cmd.cmd = str "switch")
    (hlen : (if cmd.cmd = str "login" then 2 else 1) ≤ cmd.args.length) :
    s.interpret callFn cmd fd =
      callFn (if cmd.cmd = str "login" then .loginCb else .switchCb) cmd fd s := by
  obtain ⟨ch, hlookup, hfn, harity, hexpect, hperms⟩ := htable.free hcmd
  have hpasses : s.Passes cmd fd ch := by
    refine ⟨hlookup, .inr ?_, by simp [hexpect], ?_⟩
    · rw [harity]
      split at hlen
      case isTrue h => rw [if_pos h]; exact hlen
      case isFalse h => rw [if_neg h]; exact hlen
    · rw [calculatePerms_stranger hlogin, hperms]
      rfl
  rw [interpret_of_passes hpasses, hfn]

/-- Such a session that switches to an open database writes the slot. -/
theorem interpret_switch_stranger (htable : Tabled s.ct) (hlogin : fd ∉ s.logins)
    (hcmd : cmd.cmd = str "switch") {name : Bytes} {rest : List Bytes}
    (hargs : cmd.args = name :: rest) (hname : name ∈ s.dbt) :
    s.interpret callFn cmd fd = .error .undefined := by
  have hne : cmd.cmd ≠ str "login" := by
    rw [hcmd]
    decide
  rw [interpret_free htable hlogin (.inr hcmd) (by rw [if_neg hne, hargs]; exact Nat.le_add_left 1 _),
    if_neg hne]
  exact (switchCb_stranger hlogin hargs).trans (if_pos hname)

omit [Machine] [Database δ ω] in
/-- If the command logs in a user, the record of the user has the whole password. -/
def Interpreter.Legible (s : Interpreter Table δ ω) (cmd : Cmd) : Prop :=
  cmd.cmd = str "login" → ∀ username password rest data, cmd.args = username :: password :: rest →
    s.users.lookup username = some data → Readable data

theorem interpret_stranger (htable : Tabled s.ct) (hlogin : fd ∉ s.logins) (cmd : Cmd) :
    (∃ r s', s.interpret callFn cmd fd = .ok (r, s')) ↔
      s.Legible cmd ∧ ¬ (cmd.cmd = str "switch" ∧ ∃ name ∈ cmd.args.head?, name ∈ s.dbt) := by
  constructor
  · rintro ⟨r, s', h⟩
    constructor
    · intro hcmd username password rest data hargs hdata
      rw [interpret_free htable hlogin (.inl hcmd)
        (by rw [if_pos hcmd, hargs]; exact Nat.le_add_left 2 _), if_pos hcmd] at h
      exact (loginCb_ok hlogin hargs).mp ⟨r, s', h⟩ data hdata
    · rintro ⟨hcmd, name, hname, hdb⟩
      obtain ⟨rest, hargs⟩ := List.head?_eq_some_iff.mp hname
      rw [interpret_switch_stranger htable hlogin hcmd hargs hdb] at h
      cases h
  · rintro ⟨hlegible, hswitch⟩
    cases h : s.interpret callFn cmd fd with
    | ok out => exact ⟨out.1, out.2, rfl⟩
    | error e =>
      exfalso
      obtain ⟨ch, hperms⟩ | ⟨ch, hpasses, hcall⟩ := interpret_error h
      · rw [calculatePerms_stranger hlogin] at hperms
        cases hperms
      -- Only a command that asks for no flag gets past the check.
      have hperms := hpasses.perms
      rw [calculatePerms_stranger hlogin, Except.ok.injEq, decide_eq_true_eq] at hperms
      obtain ⟨hfn, harity⟩ | ⟨hcmd, hfn, harity⟩ | hfn | ⟨hcmd, hfn, harity⟩ :=
        htable.unguarded hpasses.lookup hperms
      · obtain ⟨username, password, rest, hargs⟩ := two_args (hpasses.le_args harity (by decide))
        obtain ⟨r, s', hok⟩ := createUserCb_ok s fd hargs
        rw [hfn] at hcall
        cases hok.symm.trans hcall
      · obtain ⟨username, password, rest, hargs⟩ := two_args (hpasses.le_args harity (by decide))
        obtain ⟨r, s', hok⟩ := (loginCb_ok hlogin hargs).mpr fun data hdata =>
          hlegible hcmd username password rest data hargs hdata
        rw [hfn] at hcall
        cases hok.symm.trans hcall
      · rw [hfn] at hcall
        cases hcall
      · obtain ⟨name, rest, hargs⟩ := List.exists_cons_of_length_pos
          (hpasses.le_args harity (by decide))
        rw [hfn] at hcall
        by_cases hname : name ∈ s.dbt
        · exact hswitch ⟨hcmd, name, by rw [hargs]; rfl, hname⟩
        · cases ((switchCb_stranger hlogin hargs).trans (if_neg hname)).symm.trans hcall

omit [Database δ ω] in
theorem slot_of_executes (htable : Tabled s.ct) {fn : CmdFN} (hfn : fn ∈ CmdFN.slotReaders)
    (h : Executes s cmd fd fn) : ∃ addr, s.getWdb fd = some (some addr) := by
  obtain ⟨ch, hpasses, rfl⟩ := executes_passes h
  obtain ⟨hexpect, hneeded⟩ := htable.slotReader hpasses.lookup hfn
  cases hslot : s.getWdb fd with
  | none =>
    have hlogin : fd ∉ s.logins := by
      rw [getWdb, Option.map_eq_none_iff] at hslot
      exact AList.lookup_eq_none.mp hslot
    have hperms := hpasses.perms
    rw [calculatePerms_stranger hlogin, Except.ok.injEq, decide_eq_true_eq] at hperms
    exact absurd hperms hneeded
  | some wdb =>
    cases wdb with
    | none => exact absurd ⟨hexpect, hslot⟩ hpasses.wdb
    | some addr => exact ⟨addr, rfl⟩

/-- In every state of a run: a command of a session without a login returns unless it switches to
an open database or reads a record that is cut short; the program leaves no such record. And no
handler uses the database of a slot that is empty or missing. -/
theorem slots_respected {dbt : DBTable δ} {users roles : Table} {world : ω}
    {start : Interpreter Table δ ω} {trace : List (Event × Result)}
    (hstart : Interpreter.new dbt users roles world = .ok start)
    (hrun : Run (Steps next fun _ _ => True) start.initCommands trace s) :
    (∀ fd cmd, fd ∉ s.logins → ((∃ r s', s.interpret callFn cmd fd = .ok (r, s')) ↔
      s.Legible cmd ∧ ¬ (cmd.cmd = str "switch" ∧ ∃ name ∈ cmd.args.head?, name ∈ s.dbt))) ∧
    (AllReadable users → AllReadable s.users ∧ ∀ cmd, s.Legible cmd) ∧
    ∀ fd cmd, ∀ fn ∈ CmdFN.slotReaders, Executes s cmd fd fn →
      ∃ addr, s.getWdb fd = some (some addr) := by
  have htable := tabled_run hstart hrun
  refine ⟨fun fd cmd hlogin => interpret_stranger htable hlogin cmd, fun hreadable => ?_,
    fun fd cmd fn hfn => slot_of_executes htable hfn⟩
  have hall : AllReadable s.users := by
    refine hrun.invariant (I := fun s => AllReadable s.users) ?_ ?_
    · obtain ⟨⟨res, roles'⟩, _, hstart⟩ := bind_eq_ok hstart
      cases hstart
      exact hreadable
    · rintro s e s' hreadable ⟨_, hnext⟩
      exact readable_handle hreadable (toOption_eq_some.mp hnext)
  exact ⟨hall, fun cmd _ username _ _ data _ hdata => hall username data hdata⟩

end

section
attribute [local instance] littleEndian

theorem allReadable_rootOnly : AllReadable rootOnly :=
  AllReadable.insert (fun _ _ h => by cases h) (readable_field _ _) _

/-- One session has opened a database; another one is not logged in and asks for its name. -/
theorem slots_respected_second : ∃ trace s,
    Run (Steps next fun _ _ => True) (serverOn rootOnly).initCommands trace s ∧
      (2 ∉ s.logins ∧ ∃ r s', s.interpret callFn ⟨str "working_db", []⟩ 2 = .ok (r, s')) ∧
      ∀ fd cmd, ∀ fn ∈ CmdFN.slotReaders, Executes s cmd fd fn →
        ∃ addr, s.getWdb fd = some (some addr) := by
  have hrun : ∃ trace s, Run (Steps next fun _ _ => True) (serverOn rootOnly).initCommands trace s ∧
      2 ∉ s.logins :=
    exists_run [line 1 "login" ["root", "pw"], line 1 "open" ["d"]] (by decide +kernel)
      (by decide +kernel)
  obtain ⟨trace, s, hrun, hlogin⟩ := hrun
  obtain ⟨hreturns, hlegible, hslots⟩ := slots_respected (new_serverOn rootOnly) hrun
  have hname : str "working_db" ≠ str "switch" := by decide
  exact ⟨trace, s, hrun, ⟨hlogin, (hreturns 2 _ hlogin).mpr
    ⟨(hlegible allReadable_rootOnly).2 _, fun h => hname h.1⟩⟩, hslots⟩

/-- The session without a login switches to the database that is open. -/
theorem slot_written_missing : ∃ trace s,
    Run (Steps next fun _ _ => True) (serverOn rootOnly).initCommands trace s ∧ 2 ∉ s.logins ∧
      s.interpret callFn ⟨str "switch", [str "d"]⟩ 2 = .error .undefined := by
  have hrun : ∃ trace s, Run (Steps next fun _ _ => True) (serverOn rootOnly).initCommands trace s ∧
      (2 ∉ s.logins ∧ str "d" ∈ s.dbt) :=
    exists_run [line 1 "login" ["root", "pw"], line 1 "open" ["d"]] (by decide +kernel)
      (by decide +kernel)
  obtain ⟨trace, s, hrun, hlogin, hopen⟩ := hrun
  have htable := tabled_run (new_serverOn rootOnly) hrun
  exact ⟨trace, s, hrun, hlogin, interpret_switch_stranger htable hlogin rfl rfl hopen⟩

end

end Ambry.Aci
