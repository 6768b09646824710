import Ambry.Aci.Effects
import Ambry.Aci.Stores
import Ambry.Foundation.Lookup
import Ambry.Foundation.Run

/-!
# Working databases

A handler that takes entries out of the table sees the slot of its own session
only. As long as no command takes away an entry that another session has as its
working database, every slot is empty or points into the table.
-/

namespace Ambry.Aci

open Foundation Interpreter

section
variable {δ : Type}

def addrOf (dbt : DBTable δ) (name : Bytes) : Option Address := (dbt.lookup name).map Node.addr

def Live (dbt : DBTable δ) (addr : Address) : Prop := ∃ name, addrOf dbt name = some addr

theorem addrOf_insert {dbt : DBTable δ} {name : Bytes} {node : Node δ} (db : δ)
    (h : addrOf dbt name = some node.addr) (other : Bytes) :
    addrOf (dbt.insert name { node with db }) other = addrOf dbt other := by
  rw [addrOf]
  rcases eq_or_ne other name with rfl | hne
  · rw [AList.lookup_insert, h]
    rfl
  · rw [AList.lookup_insert_ne hne, addrOf]

theorem addrOf_of_lookup {dbt : DBTable δ} {name : Bytes} {node : Node δ}
    (h : dbt.lookup name = some node) : addrOf dbt name = some node.addr := by
  rw [addrOf, h, Option.map_some]

theorem addrOf_of_mem {dbt : DBTable δ} {e : Σ _ : Bytes, Node δ} (h : e ∈ dbt.entries) :
    addrOf dbt e.1 = some e.2.addr :=
  addrOf_of_lookup (AList.mem_lookup_iff.mpr h)

theorem Live.congr {dbt dbt' : DBTable δ} (h : ∀ name, addrOf dbt' name = addrOf dbt name)
    {a : Address} (ha : Live dbt a) : Live dbt' a := by
  obtain ⟨name, hname⟩ := ha
  exact ⟨name, (h name).trans hname⟩

theorem Live.insert_new {dbt : DBTable δ} {name : Bytes} (hnew : dbt.lookup name = none)
    (node : Node δ) {a : Address} (ha : Live dbt a) : Live (dbt.insert name node) a := by
  obtain ⟨other, hother⟩ := ha
  have hne : other ≠ name := by
    rintro rfl
    rw [addrOf, hnew] at hother
    cases hother
  exact ⟨other, by rw [addrOf, AList.lookup_insert_ne hne]; exact hother⟩

theorem live_insert (dbt : DBTable δ) (name : Bytes) (node : Node δ) :
    Live (dbt.insert name node) node.addr :=
  ⟨name, addrOf_of_lookup (AList.lookup_insert dbt)⟩

theorem Live.erase {dbt : DBTable δ} {name : Bytes} {node : Node δ}
    (hnode : dbt.lookup name = some node) {a : Address} (hne : a ≠ node.addr) (ha : Live dbt a) :
    Live (dbt.erase name) a := by
  obtain ⟨other, hother⟩ := ha
  have hname : other ≠ name := by
    rintro rfl
    rw [addrOf_of_lookup hnode] at hother
    exact hne (Option.some.inj hother).symm
  exact ⟨other, by rw [addrOf, AList.lookup_erase_ne hname]; exact hother⟩

theorem destroyEach_addrOf {ω : Type} [Database δ ω] {entries : List (Σ _ : Bytes, Node δ)}
    {dbt dbt' : DBTable δ} {world world' : ω} {res : Ambry.Result}
    (h : destroyEach entries dbt world = .ok (res, dbt', world'))
    (hentries : ∀ e ∈ entries, addrOf dbt e.1 = some e.2.addr) (name : Bytes) :
    addrOf dbt' name = addrOf dbt name := by
  induction entries generalizing dbt world with
  | nil =>
    cases h
    rfl
  | cons e entries ih =>
    obtain ⟨key, node⟩ := e
    obtain ⟨⟨res₁, db, world₁⟩, _, h⟩ := bind_eq_ok h
    have hkey := addrOf_insert db (hentries ⟨key, node⟩ List.mem_cons_self)
    dsimp only at h
    split at h
    · rw [ih h, hkey]
      intro e he
      rw [hkey]
      exact hentries e (List.mem_cons_of_mem _ he)
    · cases h
      exact hkey name

/-- Every slot is empty or points into the table. -/
def Anchored (logins : AList fun _ : Int => Login) (dbt : DBTable δ) : Prop :=
  ∀ fd login, logins.lookup fd = some login → ∀ a, login.wdb = some a → Live dbt a

namespace Anchored

variable {logins : AList fun _ : Int => Login} {dbt dbt' : DBTable δ} {fd : Int} {login : Login}

theorem mono (h : Anchored logins dbt) (hlive : ∀ a, Live dbt a → Live dbt' a) :
    Anchored logins dbt' :=
  fun fd login hlogin a ha => hlive a (h fd login hlogin a ha)

theorem insert
    (hothers : ∀ other login, other ≠ fd → logins.lookup other = some login →
      ∀ a, login.wdb = some a → Live dbt' a)
    (hslot : ∀ a, login.wdb = some a → Live dbt' a) :
    Anchored (logins.insert fd login) dbt' := by
  rintro other login' hlogin'
  obtain ⟨rfl, rfl⟩ | ⟨hne, hlogin'⟩ := lookup_insert_cases hlogin'
  · exact hslot
  · exact hothers other login' hne hlogin'

theorem clear
    (hothers : ∀ other login, other ≠ fd → logins.lookup other = some login →
      ∀ a, login.wdb = some a → Live dbt' a) :
    Anchored (logins.insert fd { login with wdb := none }) dbt' :=
  insert hothers fun a ha => by cases ha

theorem erase (h : Anchored logins dbt) : Anchored (logins.erase fd) dbt := by
  intro other login hlogin
  exact h other login (lookup_erase_some hlogin).2

end Anchored

end

variable {σ δ ω : Type} [Store σ] [Database δ ω]

/-- The addresses of the entries that a handler takes out of the table. -/
def erased (s : Interpreter σ δ ω) (fn : CmdFN) (args : List Bytes) : List Address :=
  match fn with
  | .closeCb => args.head?.toList.filterMap (addrOf s.dbt)
  | .closeAllCb => s.dbt.entries.map fun e => e.2.addr
  | .destroyAllCb =>
    match destroyEach s.dbt.entries s.dbt s.world with
    | .ok (res, _, _) => if res.ok then s.dbt.entries.map fun e => e.2.addr else []
    | .error _ => []
  | _ => []

/-- The event takes an entry away that is the working database of another session. -/
def Strands [Machine] (s : Interpreter σ δ ω) : Event → Prop
  | .command fd cmd => ∃ ch ∈ s.ct.lookup cmd.cmd, s.Passes cmd fd ch ∧
      ∃ l ∈ s.logins.entries, l.1 ≠ fd ∧ ∃ a ∈ l.2.wdb, a ∈ erased s ch.fn cmd.args
  | .hangup _ => False

section
variable [Machine] {s s' : Interpreter σ δ ω} {cmd : Cmd} {fd : Int} {ch : CmdHandle} {r : Result}

theorem not_mem_erased (hpasses : s.Passes cmd fd ch) (h : ¬ Strands s (.command fd cmd))
    {other : Int} {login : Login} {a : Address} (hne : other ≠ fd)
    (hlogin : s.logins.lookup other = some login) (ha : login.wdb = some a) :
    a ∉ erased s ch.fn cmd.args :=
  fun hmem => h ⟨ch, hpasses.lookup, hpasses, ⟨other, login⟩, AList.mem_lookup_iff.mp hlogin, hne,
    a, ha, hmem⟩

omit [Store σ] [Database δ ω] [Machine] in
theorem mem_addrs_of_live {a : Address} (h : Live s.dbt a) :
    a ∈ s.dbt.entries.map fun e => e.2.addr := by
  obtain ⟨name, hname⟩ := h
  obtain ⟨node, hnode, rfl⟩ := Option.map_eq_some_iff.mp hname
  exact List.mem_map.mpr ⟨⟨name, node⟩, AList.mem_lookup_iff.mp hnode, rfl⟩

omit [Store σ] [Database δ ω] [Machine] in
theorem derefWdb_addrOf {name : Bytes} {node : Node δ} (h : s.derefWdb fd = .ok ⟨name, node⟩) :
    addrOf s.dbt name = some node.addr :=
  addrOf_of_lookup (derefWdb_lookup h)

omit [Store σ] [Database δ ω] [Machine] in
theorem anchored_released {dbt : DBTable δ} {login : Login} {addr : Address}
    (h : Anchored s.logins s.dbt) (hlogin : s.logins.lookup fd = some login)
    (hlive : ∀ a, a ≠ addr → Live s.dbt a → Live dbt a)
    (hothers : ∀ other login, other ≠ fd → s.logins.lookup other = some login →
      login.wdb ≠ some addr) :
    Anchored (released s fd login addr) dbt := by
  have hkeep : ∀ other login', s.logins.lookup other = some login' → login'.wdb ≠ some addr →
      ∀ a, login'.wdb = some a → Live dbt a := by
    rintro other login' hlogin' hne a ha
    refine hlive a ?_ (h other login' hlogin' a ha)
    rintro rfl
    exact hne ha
  rw [released]
  split
  case isTrue hheld =>
    refine Anchored.clear fun other login' hne hlogin' => ?_
    exact hkeep other login' hlogin' (hothers other login' hne hlogin')
  case isFalse hheld =>
    rintro other login' hlogin'
    rcases eq_or_ne other fd with rfl | hne
    · obtain rfl : login = login' := Option.some.inj (hlogin.symm.trans hlogin')
      exact hkeep other login hlogin hheld
    · exact hkeep other login' hlogin' (hothers other login' hne hlogin')

omit [Machine] in
theorem Effect.anchored {fn : CmdFN} (heffect : Effect s cmd fd fn r s')
    (h : Anchored s.logins s.dbt)
    (hothers : ∀ other login a, other ≠ fd → s.logins.lookup other = some login →
      login.wdb = some a → a ∉ erased s fn cmd.args) :
    Anchored s'.logins s'.dbt := by
  cases heffect with
  | refused | answered | unlinked | roles | createdFirst | createdUser | addedRoles
  | removedRoles | deletedUser => exact h
  | onWdb _ hnode => exact h.mono fun a => Live.congr (addrOf_insert _ (derefWdb_addrOf hnode))
  | opened hargs _ hnew haddr hopen hlogin =>
    refine Anchored.insert (fun other login' _ hlogin' a ha => ?_) ?_
    · exact (h other login' hlogin' a ha).insert_new hnew _
    · rintro a ha
      cases ha
      exact live_insert _ _ _
  | switched _ _ hnode hlogin =>
    refine Anchored.insert (fun other login' _ hlogin' a ha => h other login' hlogin' a ha) ?_
    rintro a ha
    cases ha
    exact ⟨_, addrOf_of_lookup hnode⟩
  | closed hargs hnode hclose hlogin =>
    refine anchored_released h hlogin (fun a hne ha => ha.erase hnode hne) ?_
    rintro other login' hne hlogin' ha
    apply hothers other login' _ hne hlogin' ha
    simp [erased, hargs, addrOf_of_lookup hnode]
  | closedAll hclose hlogin =>
    refine Anchored.clear fun other login' hne hlogin' a ha => ?_
    have hmem := mem_addrs_of_live (h other login' hlogin' a ha)
    exact absurd hmem (hothers other login' a hne hlogin' ha)
  | destroyed hargs _ hnode hdestroy hlogin =>
    rw [released]
    split
    · refine Anchored.clear fun other login' _ hlogin' a ha => ?_
      exact (h other login' hlogin' a ha).congr (addrOf_insert _ (addrOf_of_lookup hnode))
    · exact h.mono fun a => Live.congr (addrOf_insert _ (addrOf_of_lookup hnode))
  | destroyedAll hdestroy hok hlogin =>
    refine Anchored.clear fun other login' hne hlogin' a ha => ?_
    have hmem := mem_addrs_of_live (h other login' hlogin' a ha)
    refine absurd ?_ (hothers other login' a hne hlogin' ha)
    rw [erased, hdestroy]
    simpa only [if_pos hok] using hmem
  | destroyedSome hdestroy hfail =>
    exact h.mono fun a =>
      Live.congr (destroyEach_addrOf hdestroy fun e he => addrOf_of_mem he)
  | loggedIn hargs hnew hget hfield =>
    refine Anchored.insert (fun other login' _ hlogin' a ha => h other login' hlogin' a ha) ?_
    rintro a ha
    cases ha
  | loggedOut => exact h.erase

theorem handle_anchored {e : Event} (hstep : s.handle e = .ok (r, s'))
    (h : Anchored s.logins s.dbt) (hguard : ¬ Strands s e) : Anchored s'.logins s'.dbt := by
  obtain ⟨fd, cmd, rfl, ⟨_, rfl⟩ | ⟨ch, hpasses, heffect⟩⟩ | ⟨fd, rfl, rfl⟩ := handle_cases hstep
  · exact h
  · exact heffect.anchored h fun other login a hne hlogin ha =>
      not_mem_erased hpasses hguard hne hlogin ha
  · exact h.erase

/-- In a run that strands no session, no slot ever points to a node that is not in the table. -/
theorem wdb_live {dbt : DBTable δ} {users roles : σ} {world : ω} {start : Interpreter σ δ ω}
    {trace : List (Event × Result)} (hstart : Interpreter.new dbt users roles world = .ok start)
    (hrun : Run (Steps next fun s e => ¬ Strands s e) start.initCommands trace s) :
    Anchored s.logins s.dbt := by
  refine hrun.invariant (I := fun s => Anchored s.logins s.dbt) ?_ ?_
  · obtain ⟨⟨res, roles'⟩, _, hstart⟩ := bind_eq_ok hstart
    cases hstart
    rintro fd login hlogin
    cases hlogin
  · rintro s e s' h ⟨hguard, hnext⟩
    exact handle_anchored (toOption_eq_some.mp hnext) h hguard

instance Strands.decidable (s : Interpreter σ δ ω) : ∀ e : Event, Decidable (Strands s e)
  | .command fd cmd => inferInstanceAs (Decidable (∃ ch ∈ s.ct.lookup cmd.cmd, s.Passes cmd fd ch ∧
      ∃ l ∈ s.logins.entries, l.1 ≠ fd ∧ ∃ a ∈ l.2.wdb, a ∈ erased s ch.fn cmd.args))
  | .hangup _ => inferInstanceAs (Decidable False)

end

section
attribute [local instance] littleEndian

/-- Two sessions of one user have a database each; one of them closes its own. -/
theorem wdb_live_two_sessions : ∃ trace s,
    Run (Steps next fun s e => ¬ Strands s e) (serverOn ∅).initCommands trace s ∧
      Anchored s.logins s.dbt := by
  have hrun : ∃ trace s,
      Run (Steps next fun s e => ¬ Strands s e) (serverOn ∅).initCommands trace s ∧
        (s.logins.lookup 2).map Login.wdb = some (some 2) :=
    exists_run
      [line 1 "create_user" ["root", "pw"], line 1 "login" ["root", "pw"], line 1 "open" ["a"],
        line 2 "login" ["root", "pw"], line 2 "open" ["b"], line 1 "close" ["a"]]
      (by decide +kernel) (by decide +kernel)
  obtain ⟨trace, s, hrun, _⟩ := hrun
  exact ⟨trace, s, hrun, wdb_live (new_serverOn ∅) hrun⟩

/-- The other session closes the database that both work on. -/
theorem wdb_stale : ¬ ∀ trace s,
    Run (Steps next fun _ _ => True) (serverOn ∅).initCommands trace s →
      Anchored s.logins s.dbt := by
  have hrun : ∃ trace s, Run (Steps next fun _ _ => True) (serverOn ∅).initCommands trace s ∧
      (s.dbt.entries.isEmpty ∧ s.logins.lookup 2 = some ⟨str "root", some 1⟩) :=
    exists_run
      [line 1 "create_user" ["root", "pw"], line 1 "login" ["root", "pw"], line 1 "open" ["d"],
        line 2 "login" ["root", "pw"], line 2 "switch" ["d"], line 1 "close" ["d"]]
      (by decide +kernel) (by decide +kernel)
  rintro hall
  obtain ⟨trace, s, hrun, hempty, hlogin⟩ := hrun
  have hmem := mem_addrs_of_live (hall trace s hrun 2 _ hlogin 1 rfl)
  rw [List.isEmpty_iff.mp hempty] at hmem
  cases hmem

end

end Ambry.Aci
