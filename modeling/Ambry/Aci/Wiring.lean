import Ambry.Aci.Effects
import Ambry.Foundation.Lookup
import Ambry.Foundation.Run

/-!
# The command table

Which function stands behind which name, in every state of a run. Only the flags
of a command are ever changed.
-/

namespace Ambry.Aci

open Foundation Interpreter

/-- Which function stands behind which name. -/
def wiring : List (Bytes × CmdFN) := (commandTable 0).map fun e => (e.1, e.2.fn)

theorem wiring_unique : ∀ e ∈ wiring, ∀ e' ∈ wiring, e.1 = e'.1 ↔ e.2 = e'.2 := by decide +kernel

def Wired (ct : CmdTable) : Prop := ∀ name ch, ct.lookup name = some ch → (name, ch.fn) ∈ wiring

theorem Wired.name_iff {ct : CmdTable} (h : Wired ct) {name other : Bytes} {ch : CmdHandle}
    {fn : CmdFN} (hname : ct.lookup name = some ch) (hother : (other, fn) ∈ wiring) :
    name = other ↔ ch.fn = fn :=
  wiring_unique (name, ch.fn) (h name ch hname) (other, fn) hother

theorem Wired.setPerms {ct : CmdTable} (h : Wired ct) {name : Bytes} {ch : CmdHandle}
    (hname : ct.lookup name = some ch) (perms : FlagT) :
    Wired (ct.insert name { (ct.lookup name).getD {} with perms }) := by
  rintro other ch' hother
  obtain ⟨rfl, rfl⟩ | ⟨_, hother⟩ := lookup_insert_cases hother
  · rw [hname]
    exact h other ch hname
  · exact h other ch' hother

/-- An entry of a filled table is one of those it was filled with, or was there before. -/
theorem lookup_foldl {table : List (Bytes × CmdHandle)} {ct : CmdTable} {name : Bytes}
    {ch : CmdHandle}
    (h : (table.foldl (fun ct e => ct.insert e.1 e.2) ct).lookup name = some ch) :
    (name, ch) ∈ table ∨ ct.lookup name = some ch := by
  induction table generalizing ct with
  | nil => exact .inr h
  | cons e table ih =>
    obtain h | h := ih h
    · exact .inl (List.mem_cons_of_mem e h)
    · obtain ⟨rfl, rfl⟩ | ⟨_, h⟩ := lookup_insert_cases h
      · exact .inl List.mem_cons_self
      · exact .inr h

theorem mem_foldl {table : List (Bytes × CmdHandle)} {ct : CmdTable} {name : Bytes}
    (h : name ∈ table.map Prod.fst ∨ name ∈ ct) :
    name ∈ table.foldl (fun ct e => ct.insert e.1 e.2) ct := by
  induction table generalizing ct with
  | nil =>
    obtain h | h := h
    · cases h
    · exact h
  | cons e table ih =>
    apply ih
    rw [AList.mem_insert]
    obtain h | h := h
    · obtain rfl | h := List.mem_cons.mp h
      · exact .inr (.inl rfl)
      · exact .inl h
    · exact .inr (.inr h)

theorem wired_commandTable (perms : FlagT) : ∀ e ∈ commandTable perms, (e.1, e.2.fn) ∈ wiring := by
  rintro e he
  have hwiring : (commandTable perms).map (fun e => (e.1, e.2.fn)) = wiring := rfl
  rw [← hwiring]
  exact List.mem_map_of_mem he

/-- The entries are those that `init_commands` writes, up to the flags of `create_user`. -/
structure Tabled (ct : CmdTable) : Prop where
  entry : ∀ name ch, ct.lookup name = some ch → ∃ perms, (name, ch) ∈ commandTable perms
  total : ∀ name ∈ wiring.map Prod.fst, name ∈ ct

theorem Tabled.wired {ct : CmdTable} (h : Tabled ct) : Wired ct := by
  rintro name ch hlookup
  obtain ⟨perms, hmem⟩ := h.entry name ch hlookup
  exact wired_commandTable perms _ hmem

theorem createUser_not_mem_tail : ∀ e ∈ (commandTable 0).tail, e.1 ≠ str "create_user" := by
  decide +kernel

theorem mem_commandTable_createUser {perms : FlagT} {ch : CmdHandle}
    (h : (str "create_user", ch) ∈ commandTable perms) (perms' : FlagT) :
    (str "create_user", { ch with perms := perms' }) ∈ commandTable perms' := by
  obtain h | h := List.mem_cons.mp h
  · cases h
    exact List.mem_cons_self
  · exact absurd rfl (createUser_not_mem_tail _ h)

theorem Tabled.setPerms {ct : CmdTable} (h : Tabled ct) (perms : FlagT) :
    Tabled (ct.insert (str "create_user") { (ct.lookup (str "create_user")).getD {} with perms }) := by
  constructor
  · rintro name ch hname
    obtain ⟨rfl, rfl⟩ | ⟨_, hname⟩ := lookup_insert_cases hname
    · obtain ⟨old, hold⟩ := mem_iff_lookup.mp (h.total (str "create_user") (by decide))
      obtain ⟨perms', hmem⟩ := h.entry _ _ hold
      rw [hold]
      exact ⟨perms, mem_commandTable_createUser hmem perms⟩
    · exact h.entry name ch hname
  · rintro name hname
    exact (AList.mem_insert ct).mpr (.inr (h.total name hname))

section
variable {σ δ ω : Type} [Store σ] [Database δ ω] {s s' : Interpreter σ δ ω} {cmd : Cmd} {fd : Int}
  {r : Result}

theorem Effect.tabled {fn : CmdFN} (heffect : Effect s cmd fd fn r s') (h : Tabled s.ct) :
    Tabled s'.ct := by
  cases heffect with
  | createdFirst => exact h.setPerms ADMIN
  | _ => exact h

theorem tabled_handle [Machine] {e : Event} (h : Tabled s.ct) (hstep : s.handle e = .ok (r, s')) :
    Tabled s'.ct := by
  obtain ⟨fd, cmd, rfl, ⟨_, rfl⟩ | ⟨ch, _, heffect⟩⟩ | ⟨fd, rfl, rfl⟩ := handle_cases hstep
  · exact h
  · exact heffect.tabled h
  · exact h

omit [Database δ ω] in
theorem tabled_start [Machine] {dbt : DBTable δ} {users roles : σ} {world : ω}
    {start : Interpreter σ δ ω} (hstart : Interpreter.new dbt users roles world = .ok start) :
    Tabled start.initCommands.ct := by
  obtain ⟨⟨res, roles'⟩, _, hstart⟩ := bind_eq_ok hstart
  cases hstart
  constructor
  · rintro name ch hlookup
    obtain hmem | hnone := lookup_foldl hlookup
    · exact ⟨_, hmem⟩
    · cases hnone
  · intro name hname
    exact mem_foldl (.inl hname)

/-- In every state of a run. -/
theorem tabled_run [Machine] {dbt : DBTable δ} {users roles : σ} {world : ω}
    {start : Interpreter σ δ ω} {trace : List (Event × Result)}
    (hstart : Interpreter.new dbt users roles world = .ok start)
    (hrun : Run (Steps next fun _ _ => True) start.initCommands trace s) : Tabled s.ct := by
  refine hrun.invariant (I := fun s => Tabled s.ct) (tabled_start hstart) ?_
  rintro s e s' htable ⟨_, hnext⟩
  exact tabled_handle htable (toOption_eq_some.mp hnext)

theorem Effect.wired {ch : CmdHandle} (heffect : Effect s cmd fd ch.fn r s') (h : Wired s.ct)
    (hlookup : s.ct.lookup cmd.cmd = some ch) : Wired s'.ct := by
  generalize hfn : ch.fn = fn at heffect
  cases heffect with
  | createdFirst =>
    have hname : cmd.cmd = str "create_user" := (h.name_iff hlookup (by decide)).mpr hfn
    rw [hname] at hlookup
    exact h.setPerms hlookup ADMIN
  | _ => exact h

theorem wired_handle [Machine] {e : Event} (h : Wired s.ct) (hstep : s.handle e = .ok (r, s')) :
    Wired s'.ct := by
  obtain ⟨fd, cmd, rfl, ⟨_, rfl⟩ | ⟨ch, hpasses, heffect⟩⟩ | ⟨fd, rfl, rfl⟩ := handle_cases hstep
  · exact h
  · exact heffect.wired h hpasses.lookup
  · exact h

/-- A command that is refused changes nothing; otherwise it has an effect of the function that
stands behind its name. -/
theorem Wired.command_cases [Machine] (h : Wired s.ct) {fn : CmdFN} (hmem : (cmd.cmd, fn) ∈ wiring)
    (hstep : s.handle (.command fd cmd) = .ok (r, s')) :
    (¬ r.ok ∧ s' = s) ∨ ∃ ch, s.Passes cmd fd ch ∧ ch.fn = fn ∧ Effect s cmd fd fn r s' := by
  obtain ⟨fd', cmd', he, hrefused | ⟨ch, hpasses, heffect⟩⟩ | ⟨fd', he, _⟩ := handle_cases hstep
  · exact .inl hrefused
  · cases he
    have hfn : ch.fn = fn := (h.name_iff hpasses.lookup hmem).mp rfl
    exact .inr ⟨ch, hpasses, hfn, hfn ▸ heffect⟩
  · cases he

omit [Database δ ω] in
theorem wired_start [Machine] {dbt : DBTable δ} {users roles : σ} {world : ω}
    {start : Interpreter σ δ ω} (hstart : Interpreter.new dbt users roles world = .ok start) :
    Wired start.initCommands.ct :=
  (tabled_start hstart).wired

end

end Ambry.Aci
