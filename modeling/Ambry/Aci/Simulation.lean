import Ambry.Aci.Effects
import Ambry.Foundation.Run

/-!
# Interpreters that cannot be told apart

The handlers reach the users, the roles and the open databases through their
operations only. So where the operations of one kind of store follow those of another,
and those of one kind of database those of another, a command that one interpreter
executes is executed by the other with the same result.
-/

namespace Ambry.Aci

open Foundation

section
variable {σ τ : Type} [Store σ] [Store τ]

/-- The operations of one kind of store follow those of the other. -/
structure StoreFollows (R : σ → τ → Prop) : Prop where
  get : ∀ s t, R s t → Store.get s = Store.get t
  contains : ∀ s t, R s t → Store.contains s = Store.contains t
  size : ∀ s t, R s t → Store.size s = Store.size t
  entries : ∀ s t, R s t → Store.entries s = Store.entries t
  set : ∀ s t, R s t → ∀ key value,
    Follows (fun a b => a.1 = b.1 ∧ R a.2 b.2) (Store.set s key value) (Store.set t key value)
  update : ∀ s t, R s t → ∀ key value,
    Follows (fun a b => a.1 = b.1 ∧ R a.2 b.2) (Store.update s key value) (Store.update t key value)
  erase : ∀ s t, R s t → ∀ key,
    Follows (fun a b => a.1 = b.1 ∧ R a.2 b.2) (Store.erase s key) (Store.erase t key)

end

section
variable {δ ω δ' ω' : Type} [Database δ ω] [Database δ' ω']

/-- What the interpreter sees of an open database without a call that needs the world. -/
def face (e : Σ _ : Bytes, Node δ) : Bytes × Address × Bytes × Nat × Bool :=
  (e.1, e.2.addr, Database.name e.2.db, Database.size e.2.db, Database.isCached e.2.db)

/-- A call on an open database, the same on both sides. -/
inductive SameCall : {α : Type} → Method δ ω α → Method δ' ω' α → Prop
  | switchCache (on : Bool) : SameCall (Database.switchCache on) (Database.switchCache on)
  | get (key : Bytes) : SameCall (Database.get key) (Database.get key)
  | getCached (key : Bytes) : SameCall (Database.getCached key) (Database.getCached key)
  | set (key value : Bytes) : SameCall (Database.set key value) (Database.set key value)
  | update (key value : Bytes) : SameCall (Database.update key value) (Database.update key value)
  | erase (key : Bytes) : SameCall (Database.erase key) (Database.erase key)

/-- The open databases of one kind, with their world, follow those of the other; only databases of
these names are opened, and only theirs are the files that are removed. -/
structure DatabasesFollow (allowed : Bytes → Prop) (R : DBTable δ → ω → DBTable δ' → ω' → Prop) :
    Prop where
  faces : ∀ dbt w dbt' w', R dbt w dbt' w' → dbt.entries.map face = dbt'.entries.map face
  alloc : ∀ dbt w dbt' w', R dbt w dbt' w' → ∀ used,
    Database.alloc δ w used = Database.alloc δ' w' used
  call : ∀ dbt w dbt' w', R dbt w dbt' w' → ∀ name node node',
    dbt.lookup name = some node → dbt'.lookup name = some node' →
    ∀ (α : Type) (m : Method δ ω α) (m' : Method δ' ω' α), SameCall m m' →
      Follows (fun a b => a.1 = b.1 ∧ R (dbt.insert name { node with db := a.2.1 }) a.2.2
        (dbt'.insert name { node' with db := b.2.1 }) b.2.2) (m node.db w) (m' node'.db w')
  «open» : ∀ dbt w dbt' w', R dbt w dbt' w' → ∀ name addr,
    allowed name → dbt.lookup name = none →
      Follows (fun a b => a.1 = b.1 ∧ R (dbt.insert name ⟨addr, a.2.1⟩) a.2.2
        (dbt'.insert name ⟨addr, b.2.1⟩) b.2.2)
        (Database.open (Database.new name : δ) w) (Database.open (Database.new name : δ') w')
  close : ∀ dbt w dbt' w', R dbt w dbt' w' → ∀ name node node',
    dbt.lookup name = some node → dbt'.lookup name = some node' →
      Follows (fun a b => R (dbt.erase name) a.2.2 (dbt'.erase name) b.2.2)
        (Database.close node.db w) (Database.close node'.db w')
  destroy : ∀ dbt w dbt' w', R dbt w dbt' w' → ∀ name node node',
    dbt.lookup name = some node → dbt'.lookup name = some node' →
      Follows (fun a b => a.1 = b.1 ∧ R (dbt.insert name { node with db := a.2.1 }) a.2.2
        (dbt'.insert name { node' with db := b.2.1 }) b.2.2)
        (Database.destroy node.db w) (Database.destroy node'.db w')
  clear : ∀ dbt w dbt' w', R dbt w dbt' w' → R ∅ w ∅ w'
  destroyFiles : ∀ dbt w dbt' w', R dbt w dbt' w' → ∀ name,
    allowed name → dbt.lookup name = none → Follows (fun a b => a.1 = b.1 ∧ R dbt a.2 dbt' b.2)
      (Database.destroyFiles δ name w) (Database.destroyFiles δ' name w')

end

/-! ### Related interpreters -/

section
variable {σ τ δ ω δ' ω' : Type} [Store σ] [Store τ] [Database δ ω] [Database δ' ω']
  {allowed : Bytes → Prop} {RS : σ → τ → Prop} {RD : DBTable δ → ω → DBTable δ' → ω' → Prop}

structure Similar (allowed : Bytes → Prop) (RS : σ → τ → Prop)
    (RD : DBTable δ → ω → DBTable δ' → ω' → Prop) (s : Interpreter σ δ ω)
    (t : Interpreter τ δ' ω') : Prop where
  ct : s.ct = t.ct
  restrictedDbs : s.restrictedDbs = t.restrictedDbs
  allowed : ∀ name, name ∉ s.restrictedDbs → allowed name
  logins : s.logins = t.logins
  users : RS s.users t.users
  roles : RS s.roles t.roles
  databases : RD s.dbt s.world t.dbt t.world

/-- Two commands come to the same result, and to related interpreters. -/
abbrev Agree (allowed : Bytes → Prop) (RS : σ → τ → Prop)
    (RD : DBTable δ → ω → DBTable δ' → ω' → Prop) :
    Result × Interpreter σ δ ω → Result × Interpreter τ δ' ω' → Prop :=
  fun a b => a.1 = b.1 ∧ Similar allowed RS RD a.2 b.2

variable {s : Interpreter σ δ ω} {t : Interpreter τ δ' ω'} {cmd : Cmd} {fd : Int}

namespace Similar

omit [Store σ] [Store τ] [Database δ ω] [Database δ' ω'] in
theorem logins_eq (h : Similar allowed RS RD s t) (logins : AList fun _ : Int => Login) :
    Similar allowed RS RD { s with logins } { t with logins } :=
  ⟨h.ct, h.restrictedDbs, h.allowed, rfl, h.users, h.roles, h.databases⟩

omit [Store σ] [Store τ] [Database δ ω] [Database δ' ω'] in
theorem databases_eq (h : Similar allowed RS RD s t) {dbt : DBTable δ} {w : ω} {dbt' : DBTable δ'}
    {w' : ω'} (hdatabases : RD dbt w dbt' w') :
    Similar allowed RS RD { s with dbt, world := w } { t with dbt := dbt', world := w' } :=
  ⟨h.ct, h.restrictedDbs, h.allowed, h.logins, h.users, h.roles, hdatabases⟩

omit [Store σ] [Store τ] [Database δ ω] [Database δ' ω'] in
theorem users_eq (h : Similar allowed RS RD s t) {users : σ} {users' : τ} (husers : RS users users') :
    Similar allowed RS RD { s with users } { t with users := users' } :=
  ⟨h.ct, h.restrictedDbs, h.allowed, h.logins, husers, h.roles, h.databases⟩

omit [Store σ] [Store τ] [Database δ ω] [Database δ' ω'] in
theorem roles_eq (h : Similar allowed RS RD s t) {roles : σ} {roles' : τ} (hroles : RS roles roles') :
    Similar allowed RS RD { s with roles } { t with roles := roles' } :=
  ⟨h.ct, h.restrictedDbs, h.allowed, h.logins, h.users, hroles, h.databases⟩

omit [Store σ] [Store τ] [Database δ ω] [Database δ' ω'] in
theorem setPerms (h : Similar allowed RS RD s t) (name : Bytes) (perms : FlagT) :
    Similar allowed RS RD (s.setPerms name perms) (t.setPerms name perms) :=
  ⟨by simp only [Interpreter.setPerms, h.ct], h.restrictedDbs, h.allowed, h.logins, h.users,
    h.roles, h.databases⟩

omit [Store σ] [Store τ] [Database δ ω] [Database δ' ω'] in
theorem wdbSlot (h : Similar allowed RS RD s t) : s.wdbSlot fd = t.wdbSlot fd := by
  rw [Interpreter.wdbSlot, Interpreter.wdbSlot, h.logins]

omit [Store σ] [Store τ] [Database δ ω] [Database δ' ω'] in
theorem setWdb (h : Similar allowed RS RD s t) (wdb : Option Address) :
    Follows (fun a b => Similar allowed RS RD a b ∧ a.dbt = s.dbt ∧ b.dbt = t.dbt)
      (s.setWdb fd wdb) (t.setWdb fd wdb) := by
  rw [Interpreter.setWdb, Interpreter.setWdb, ← h.logins]
  cases s.logins.lookup fd with
  | none => exact .error
  | some login => exact .ok ⟨h.logins_eq _, rfl, rfl⟩

omit [Store σ] [Store τ] [Database δ ω] [Database δ' ω'] in
theorem releaseWdb (h : Similar allowed RS RD s t) {addr addr' : Address} (haddr : addr = addr') :
    Follows (fun a b => Similar allowed RS RD a b ∧ a.dbt = s.dbt ∧ b.dbt = t.dbt)
      (s.releaseWdb fd addr) (t.releaseWdb fd addr') := by
  subst haddr
  rw [Interpreter.releaseWdb, Interpreter.releaseWdb, ← h.wdbSlot]
  refine .after fun wdb _ => ?_
  by_cases hwdb : wdb = some addr
  · rw [if_pos hwdb, if_pos hwdb]
    exact h.setWdb none
  · rw [if_neg hwdb, if_neg hwdb]
    exact .ok ⟨h, rfl, rfl⟩

end Similar

/-! ### Tables that look alike -/

section
variable {name : Bytes} {node : Node δ} {node' : Node δ'}

theorem face_addr (h : face ⟨name, node⟩ = face ⟨name, node'⟩) : node.addr = node'.addr :=
  congrArg (fun p => p.2.1) h

theorem face_name (h : face ⟨name, node⟩ = face ⟨name, node'⟩) :
    Database.name node.db = Database.name node'.db :=
  congrArg (fun p => p.2.2.1) h

theorem face_isCached (h : face ⟨name, node⟩ = face ⟨name, node'⟩) :
    Database.isCached node.db = Database.isCached node'.db :=
  congrArg (fun p => p.2.2.2.2) h

end

theorem faces_lookup {dbt : DBTable δ} {dbt' : DBTable δ'}
    (h : dbt.entries.map face = dbt'.entries.map face) (name : Bytes) :
    (dbt.lookup name).map (fun node => face ⟨name, node⟩) =
      (dbt'.lookup name).map fun node => face ⟨name, node⟩ := by
  have hlist : ∀ {l : List (Σ _ : Bytes, Node δ)} {l' : List (Σ _ : Bytes, Node δ')},
      l.map face = l'.map face →
      (l.dlookup name).map (fun node => face ⟨name, node⟩) =
        (l'.dlookup name).map fun node => face ⟨name, node⟩ := by
    intro l
    induction l with
    | nil =>
      intro l' hl
      rw [List.map_eq_nil_iff.mp hl.symm]
      rfl
    | cons e l ih =>
      intro l' hl
      obtain ⟨e', l', rfl, he, htail⟩ := List.map_eq_cons_iff.mp hl.symm
      obtain ⟨key, node⟩ := e
      obtain ⟨key', node'⟩ := e'
      obtain rfl : key' = key := congrArg Prod.fst he
      by_cases hkey : name = key'
      · subst hkey
        rw [List.dlookup_cons_eq, List.dlookup_cons_eq, Option.map_some, Option.map_some, he]
      · rw [List.dlookup_cons_ne _ _ hkey, List.dlookup_cons_ne _ _ hkey]
        exact ih htail.symm
  exact hlist h

/-- An entry on one side has one on the other. -/
theorem faces_cases {dbt : DBTable δ} {dbt' : DBTable δ'}
    (h : dbt.entries.map face = dbt'.entries.map face) (name : Bytes) :
    (dbt.lookup name = none ∧ dbt'.lookup name = none) ∨
      ∃ node node', dbt.lookup name = some node ∧ dbt'.lookup name = some node' ∧
        face ⟨name, node⟩ = face ⟨name, node'⟩ := by
  have hlookup := faces_lookup h name
  cases hnode : dbt.lookup name with
  | none =>
    rw [hnode, Option.map_none] at hlookup
    exact .inl ⟨rfl, Option.map_eq_none_iff.mp hlookup.symm⟩
  | some node =>
    rw [hnode, Option.map_some] at hlookup
    obtain ⟨node', hnode', hface⟩ := Option.map_eq_some_iff.mp hlookup.symm
    exact .inr ⟨node, node', rfl, hnode', hface.symm⟩

theorem faces_erase {dbt : DBTable δ} {dbt' : DBTable δ'}
    (h : dbt.entries.map face = dbt'.entries.map face) (name : Bytes) :
    (dbt.erase name).entries.map face = (dbt'.erase name).entries.map face := by
  have herase := congrArg (List.eraseP fun p => decide (name = p.1)) h
  rw [List.eraseP_map, List.eraseP_map] at herase
  exact herase

theorem faces_insert {dbt : DBTable δ} {dbt' : DBTable δ'}
    (h : dbt.entries.map face = dbt'.entries.map face) {name : Bytes} {node : Node δ}
    {node' : Node δ'} (hface : face ⟨name, node⟩ = face ⟨name, node'⟩) :
    (dbt.insert name node).entries.map face = (dbt'.insert name node').entries.map face := by
  have herase := faces_erase h name
  rw [AList.entries_insert, AList.entries_insert, List.map_cons, List.map_cons, hface]
  exact congrArg _ herase

theorem faces_entryAt {dbt : DBTable δ} {dbt' : DBTable δ'}
    (h : dbt.entries.map face = dbt'.entries.map face) (addr : Address) :
    (dbt.entries.find? fun e => e.2.addr = addr).map face =
      (dbt'.entries.find? fun e => e.2.addr = addr).map face := by
  have hfind := congrArg (List.find? fun e => decide (e.2.1 = addr)) h
  rw [List.find?_map, List.find?_map] at hfind
  exact hfind

omit [Store σ] in
theorem openCb_of_new {name : Bytes} {rest : List Bytes} {res : Ambry.Result} {addr : Address}
    {db : δ} {world : ω} {login : Login} (hargs : cmd.args = name :: rest)
    (hallowed : name ∉ s.restrictedDbs) (hnew : s.dbt.lookup name = none)
    (haddr : Database.alloc δ s.world (s.dbt.entries.map fun e => e.2.addr) = addr)
    (hopen : Database.open (Database.new name) s.world = .ok (res, db, world))
    (hlogin : s.logins.lookup fd = some login) :
    openCb cmd fd s = .ok (toRes res, { s with
      dbt := s.dbt.insert name ⟨addr, db⟩
      logins := s.logins.insert fd { login with wdb := some addr }, world }) := by
  rw [openCb, hargs]
  simp only [front, bind, Except.bind, if_neg hallowed, hnew, haddr, Interpreter.setWdb, hlogin,
    Interpreter.onWdb, Interpreter.derefWdb_new, hopen, AList.insert_insert]
  rfl

namespace Similar

variable (hD : DatabasesFollow allowed RD)
include hD

omit [Store σ] [Store τ] in
theorem derefWdb (h : Similar allowed RS RD s t) :
    Follows (fun e e' => e.1 = e'.1 ∧ s.dbt.lookup e.1 = some e.2 ∧
      t.dbt.lookup e'.1 = some e'.2 ∧ face e = face e') (s.derefWdb fd) (t.derefWdb fd) := by
  intro e he
  obtain ⟨name, node⟩ := e
  have hnode := Interpreter.derefWdb_lookup he
  rw [Interpreter.derefWdb, h.wdbSlot] at he
  obtain ⟨wdb, hwdb, he⟩ := bind_eq_ok he
  cases wdb with
  | none => cases he
  | some addr =>
    have hentry : s.entryAt addr = some ⟨name, node⟩ := by
      dsimp only at he
      split at he
      · cases he
        assumption
      · cases he
    have hfaces := faces_entryAt (hD.faces _ _ _ _ h.databases) addr
    rw [Interpreter.entryAt] at hentry
    rw [hentry, Option.map_some] at hfaces
    obtain ⟨⟨name', node'⟩, hentry', hface⟩ := Option.map_eq_some_iff.mp hfaces.symm
    refine ⟨⟨name', node'⟩, ?_, (congrArg Prod.fst hface).symm, hnode,
      AList.mem_lookup_iff.mpr (List.mem_of_find?_eq_some hentry'), hface.symm⟩
    have hat : t.entryAt addr = some ⟨name', node'⟩ := hentry'
    rw [Interpreter.derefWdb, hwdb]
    simp only [bind, Except.bind, hat]

omit [Store σ] [Store τ] in
theorem onWdb (h : Similar allowed RS RD s t) {α : Type} {m : Method δ ω α} {m' : Method δ' ω' α}
    (hm : SameCall m m') :
    Follows (fun a b => a.1 = b.1 ∧ Similar allowed RS RD a.2 b.2) (s.onWdb fd m) (t.onWdb fd m') := by
  refine (h.derefWdb hD).bind ?_
  rintro ⟨name, node⟩ ⟨_, node'⟩ ⟨rfl, hnode, hnode', -⟩
  refine (hD.call _ _ _ _ h.databases _ _ _ hnode hnode' _ _ _ hm).bind ?_
  rintro ⟨a, db, w⟩ ⟨_, db', w'⟩ ⟨rfl, hdatabases⟩
  exact .ok ⟨rfl, h.databases_eq hdatabases⟩

/-! ### The commands on the open databases -/

variable (cmd fd)

omit [Store σ] [Store τ] in
theorem updateSetImpl (h : Similar allowed RS RD s t) {m : Bytes → Bytes → Method δ ω Ambry.Result}
    {m' : Bytes → Bytes → Method δ' ω' Ambry.Result}
    (hm : ∀ key value, SameCall (m key value) (m' key value)) :
    Follows (Agree allowed RS RD) (updateSetImpl m cmd fd s) (updateSetImpl m' cmd fd t) := by
  refine .after fun key _ => ?_
  refine (h.onWdb hD (hm key _)).bind ?_
  rintro ⟨res, s₁⟩ ⟨_, t₁⟩ ⟨rfl, h₁⟩
  exact .ok ⟨rfl, h₁⟩

omit [Store σ] [Store τ] in
theorem eraseCb (h : Similar allowed RS RD s t) :
    Follows (Agree allowed RS RD) (eraseCb cmd fd s) (eraseCb cmd fd t) := by
  refine .after fun key _ => ?_
  refine (h.onWdb hD (.erase key)).bind ?_
  rintro ⟨res, s₁⟩ ⟨_, t₁⟩ ⟨rfl, h₁⟩
  exact .ok ⟨rfl, h₁⟩

omit [Store σ] [Store τ] in
theorem getCb (h : Similar allowed RS RD s t) :
    Follows (Agree allowed RS RD) (getCb cmd fd s) (getCb cmd fd t) := by
  refine .after fun key _ => ?_
  refine (h.derefWdb hD).bind ?_
  rintro ⟨name, node⟩ ⟨_, node'⟩ ⟨rfl, hnode, hnode', hface⟩
  have hcall : SameCall (if Database.isCached node.db then Database.getCached (δ := δ) key
      else Database.get key) (if Database.isCached node'.db then Database.getCached (δ := δ') key
      else Database.get key) := by
    rw [← face_isCached hface]
    split
    · exact .getCached key
    · exact .get key
  refine (h.onWdb hD hcall).bind ?_
  rintro ⟨opt, s₁⟩ ⟨_, t₁⟩ ⟨rfl, h₁⟩
  cases opt with
  | none => exact .ok ⟨rfl, h₁⟩
  | some value => exact .ok ⟨rfl, h₁⟩

omit [Store σ] [Store τ] in
theorem cacheModeCb (h : Similar allowed RS RD s t) :
    Follows (Agree allowed RS RD) (cacheModeCb cmd fd s) (cacheModeCb cmd fd t) := by
  refine .after fun arg _ => ?_
  split
  · refine (h.onWdb hD (.switchCache true)).bind ?_
    rintro ⟨_, s₁⟩ ⟨_, t₁⟩ ⟨_, h₁⟩
    exact .ok ⟨rfl, h₁⟩
  split
  · refine (h.onWdb hD (.switchCache false)).bind ?_
    rintro ⟨_, s₁⟩ ⟨_, t₁⟩ ⟨_, h₁⟩
    exact .ok ⟨rfl, h₁⟩
  · exact .ok ⟨rfl, h⟩

omit [Store σ] [Store τ] in
theorem workingDbCb (h : Similar allowed RS RD s t) :
    Follows (Agree allowed RS RD) (workingDbCb cmd fd s) (workingDbCb cmd fd t) := by
  refine (h.derefWdb hD).bind ?_
  rintro ⟨name, node⟩ ⟨_, node'⟩ ⟨rfl, _, _, hface⟩
  refine .ok ⟨?_, h⟩
  rw [face_name hface]

omit [Store σ] [Store τ] in
theorem switchCb (h : Similar allowed RS RD s t) :
    Follows (Agree allowed RS RD) (switchCb cmd fd s) (switchCb cmd fd t) := by
  refine .after fun name _ => ?_
  obtain ⟨hnode, hnode'⟩ | ⟨node, node', hnode, hnode', hface⟩ :=
    faces_cases (hD.faces _ _ _ _ h.databases) name
  · rw [hnode, hnode']
    exact .ok ⟨rfl, h⟩
  · rw [hnode, hnode']
    dsimp only
    rw [face_addr hface]
    refine (h.setWdb (some node'.addr)).bind ?_
    rintro s₁ t₁ ⟨h₁, _, _⟩
    exact .ok ⟨rfl, h₁⟩

omit [Store σ] [Store τ] in
theorem openCb (h : Similar allowed RS RD s t) :
    Follows (Agree allowed RS RD) (openCb cmd fd s) (openCb cmd fd t) := by
  rintro ⟨r, s'⟩ hcall
  obtain ⟨name, hargs, hs⟩ := bind_eq_ok hcall
  obtain ⟨rest, hargs⟩ := front_eq_ok hargs
  by_cases hallowed : name ∈ s.restrictedDbs
  · rw [if_pos hallowed] at hs
    cases hs
    refine ⟨(interErr "the provided database is restricted", t), ?_, rfl, h⟩
    rw [h.restrictedDbs] at hallowed
    rw [Aci.openCb, hargs]
    exact if_pos hallowed
  have hallowed' : name ∉ t.restrictedDbs := h.restrictedDbs ▸ hallowed
  have hfaces := hD.faces _ _ _ _ h.databases
  obtain ⟨hnode, hnode'⟩ | ⟨node, node', hnode, hnode', hface⟩ := faces_cases hfaces name
  · obtain ⟨res, addr, db, w, login, haddr, hopen, hlogin, rfl, rfl⟩ :=
      openCb_new hargs hallowed hnode hcall
    have haddrs : (s.dbt.entries.map fun e => e.2.addr) = t.dbt.entries.map fun e => e.2.addr := by
      have hmap := congrArg (List.map fun p => p.2.1) hfaces
      rwa [List.map_map, List.map_map] at hmap
    rw [hD.alloc _ _ _ _ h.databases, haddrs] at haddr
    obtain ⟨⟨_, db', w'⟩, hopen', rfl, hdatabases⟩ :=
      hD.open _ _ _ _ h.databases name addr (h.allowed name hallowed) hnode _ hopen
    refine ⟨_, openCb_of_new hargs hallowed' hnode' haddr hopen' (h.logins ▸ hlogin), rfl, ?_⟩
    rw [← h.logins]
    exact (h.logins_eq (s.logins.insert fd { login with wdb := some addr })).databases_eq hdatabases
  · rw [if_neg hallowed, hnode] at hs
    obtain ⟨s₁, hs₁, hs⟩ := bind_eq_ok hs
    cases hs
    obtain ⟨t₁, ht₁, h₁, _⟩ := h.setWdb (some node.addr) _ hs₁
    refine ⟨(output [], t₁), ?_, rfl, h₁⟩
    rw [Aci.openCb, hargs]
    simp only [Aci.front, bind, Except.bind, if_neg hallowed', hnode', ← face_addr hface, ht₁]
    rfl

omit [Store σ] [Store τ] in
theorem closeCb (h : Similar allowed RS RD s t) :
    Follows (Agree allowed RS RD) (closeCb cmd fd s) (closeCb cmd fd t) := by
  refine .after fun name _ => ?_
  obtain ⟨hnode, hnode'⟩ | ⟨node, node', hnode, hnode', hface⟩ :=
    faces_cases (hD.faces _ _ _ _ h.databases) name
  · rw [hnode, hnode']
    exact .ok ⟨rfl, h⟩
  · rw [hnode, hnode']
    refine (h.releaseWdb (face_addr hface)).bind ?_
    rintro s₁ t₁ ⟨h₁, hs₁, ht₁⟩
    rw [← hs₁] at hnode
    rw [← ht₁] at hnode'
    refine (hD.close _ _ _ _ h₁.databases name node node' hnode hnode').bind ?_
    rintro ⟨_, _, w⟩ ⟨_, _, w'⟩ hdatabases
    exact .ok ⟨rfl, h₁.databases_eq hdatabases⟩

omit [Store σ] [Store τ] in
theorem destroyCb (h : Similar allowed RS RD s t) :
    Follows (Agree allowed RS RD) (destroyCb cmd fd s) (destroyCb cmd fd t) := by
  refine .after fun name _ => ?_
  have hsame : name ∈ t.restrictedDbs ↔ name ∈ s.restrictedDbs := by rw [h.restrictedDbs]
  by_cases hallowed : name ∈ s.restrictedDbs
  · rw [if_pos hallowed, if_pos (hsame.mpr hallowed)]
    exact .ok ⟨rfl, h⟩
  rw [if_neg hallowed, if_neg (hsame.not.mpr hallowed)]
  obtain ⟨hnode, hnode'⟩ | ⟨node, node', hnode, hnode', hface⟩ :=
    faces_cases (hD.faces _ _ _ _ h.databases) name
  · rw [hnode, hnode']
    refine (hD.destroyFiles _ _ _ _ h.databases name (h.allowed name hallowed) hnode).bind ?_
    rintro ⟨res, w⟩ ⟨_, w'⟩ ⟨rfl, hdatabases⟩
    exact .ok ⟨rfl, h.databases_eq hdatabases⟩
  · rw [hnode, hnode']
    refine (h.releaseWdb (face_addr hface)).bind ?_
    rintro s₁ t₁ ⟨h₁, hs₁, ht₁⟩
    rw [← hs₁] at hnode
    rw [← ht₁] at hnode'
    refine (hD.destroy _ _ _ _ h₁.databases name node node' hnode hnode').bind ?_
    rintro ⟨res, _, w⟩ ⟨_, _, w'⟩ ⟨rfl, hdatabases⟩
    refine .ok ⟨rfl, ?_⟩
    exact h₁.databases_eq hdatabases

omit [Store σ] [Store τ] in
theorem listOpenCb (h : Similar allowed RS RD s t) :
    Follows (Agree allowed RS RD) (listOpenCb cmd fd s) (listOpenCb cmd fd t) := by
  have hlines : ∀ start, s.dbt.entries.foldlM (fun out e =>
        appendFormat out "\x7b\x7d - \x7b\x7d\n"
          [Database.name e.2.db, decimal (Database.size e.2.db)]) start =
      t.dbt.entries.foldlM (fun out e =>
        appendFormat out "\x7b\x7d - \x7b\x7d\n"
          [Database.name e.2.db, decimal (Database.size e.2.db)]) start := by
    intro start
    have hfold := congrArg (fun l => l.foldlM (fun out (p : Bytes × Address × Bytes × Nat × Bool) =>
      appendFormat out "\x7b\x7d - \x7b\x7d\n" [p.2.2.1, decimal p.2.2.2.1]) start)
      (hD.faces _ _ _ _ h.databases)
    simp only [List.foldlM_map] at hfold
    exact hfold
  rw [Aci.listOpenCb, Aci.listOpenCb, hlines]
  exact .after fun out _ => .ok ⟨rfl, h⟩

end Similar

/-! ### All databases at once -/

section
variable {dbt : DBTable δ} {dbt' : DBTable δ'} {w : ω} {w' : ω'}
  {entries : List (Σ _ : Bytes, Node δ)} {entries' : List (Σ _ : Bytes, Node δ')}

omit [Database δ ω] in
/-- The first entry of a table is what its name stands for, and the others are left without it. -/
theorem entries_cons {e : Σ _ : Bytes, Node δ} (h : dbt.entries = e :: entries) :
    dbt.lookup e.1 = some e.2 ∧ (dbt.erase e.1).entries = entries := by
  constructor
  · exact AList.mem_lookup_iff.mpr (h ▸ List.mem_cons_self)
  · change List.kerase e.1 dbt.entries = entries
    rw [h, List.kerase_cons_eq rfl]

theorem closeEach_follows (hD : DatabasesFollow allowed RD) (h : RD dbt w dbt' w') :
    Follows (fun w w' => RD ∅ w ∅ w') (closeEach w dbt.entries) (closeEach w' dbt'.entries) := by
  generalize hentries : dbt.entries = entries
  induction entries generalizing dbt dbt' w w' with
  | nil =>
    have hfaces := hD.faces _ _ _ _ h
    rw [hentries] at hfaces
    rw [List.map_eq_nil_iff.mp hfaces.symm]
    exact .ok (hD.clear _ _ _ _ h)
  | cons e entries ih =>
    have hfaces := hD.faces _ _ _ _ h
    rw [hentries] at hfaces
    obtain ⟨e', entries', hentries', hface, -⟩ := List.map_eq_cons_iff.mp hfaces.symm
    obtain ⟨hnode, hrest⟩ := entries_cons hentries
    obtain ⟨hnode', hrest'⟩ := entries_cons hentries'
    have hname : e'.1 = e.1 := congrArg Prod.fst hface
    rw [hname] at hnode' hrest'
    rw [hentries', closeEach, closeEach, List.foldlM_cons, List.foldlM_cons]
    refine Follows.bind (R := fun w w' => RD (dbt.erase e.1) w (dbt'.erase e.1) w') ?_ ?_
    · refine (hD.close _ _ _ _ h e.1 e.2 e'.2 hnode hnode').bind ?_
      rintro ⟨_, _, w⟩ ⟨_, _, w'⟩ hdatabases
      exact .ok hdatabases
    · intro w₁ w₁' hdatabases
      have hclose := ih hdatabases hrest
      rw [hrest'] at hclose
      exact hclose

theorem destroyEach_follows (hD : DatabasesFollow allowed RD) (h : RD dbt w dbt' w')
    (hfaces : entries.map face = entries'.map face) (hnodup : entries.NodupKeys)
    (hmem : ∀ e ∈ entries, dbt.lookup e.1 = some e.2)
    (hmem' : ∀ e ∈ entries', dbt'.lookup e.1 = some e.2) :
    Follows (fun a b => a.1 = b.1 ∧ RD a.2.1 a.2.2 b.2.1 b.2.2)
      (destroyEach entries dbt w) (destroyEach entries' dbt' w') := by
  induction entries generalizing entries' dbt dbt' w w' with
  | nil =>
    rw [List.map_eq_nil_iff.mp hfaces.symm]
    exact .ok ⟨rfl, h⟩
  | cons e entries ih =>
    obtain ⟨e', entries', rfl, hface, hrest⟩ := List.map_eq_cons_iff.mp hfaces.symm
    obtain ⟨name, node⟩ := e
    obtain ⟨name', node'⟩ := e'
    obtain rfl : name' = name := congrArg Prod.fst hface
    obtain ⟨hnew, hnodup⟩ := List.nodupKeys_cons.mp hnodup
    have hnew' : name' ∉ entries'.keys := by
      have hkeys : entries'.keys = entries.keys := by
        have hmap := congrArg (List.map Prod.fst) hrest
        rwa [List.map_map, List.map_map] at hmap
      rwa [hkeys]
    refine (hD.destroy _ _ _ _ h name' node node' (hmem _ List.mem_cons_self)
      (hmem' _ List.mem_cons_self)).bind ?_
    rintro ⟨res, db, w₁⟩ ⟨_, db', w₁'⟩ ⟨rfl, hdatabases⟩
    by_cases hok : res.ok
    · simp only [if_pos hok]
      refine ih hdatabases hrest.symm hnodup ?_ ?_
      · intro e he
        rw [AList.lookup_insert_ne]
        · exact hmem e (List.mem_cons_of_mem _ he)
        · intro heq
          have hkey := List.mem_keys_of_mem he
          exact hnew (by rwa [heq] at hkey)
      · intro e he
        rw [AList.lookup_insert_ne]
        · exact hmem' e (List.mem_cons_of_mem _ he)
        · intro heq
          have hkey := List.mem_keys_of_mem he
          exact hnew' (by rwa [heq] at hkey)
    · simp only [if_neg hok]
      exact .ok ⟨rfl, hdatabases⟩

end

namespace Similar

variable (hD : DatabasesFollow allowed RD) (cmd fd)
include hD

omit [Store σ] [Store τ] in
theorem closeAllCb (h : Similar allowed RS RD s t) :
    Follows (Agree allowed RS RD) (closeAllCb cmd fd s) (closeAllCb cmd fd t) := by
  refine (closeEach_follows hD h.databases).bind ?_
  intro w w' hdatabases
  refine (h.setWdb none).bind ?_
  rintro s₁ t₁ ⟨h₁, _, _⟩
  exact .ok ⟨rfl, h₁.databases_eq hdatabases⟩

omit [Store σ] [Store τ] in
theorem destroyAllCb (h : Similar allowed RS RD s t) :
    Follows (Agree allowed RS RD) (destroyAllCb cmd fd s) (destroyAllCb cmd fd t) := by
  refine (destroyEach_follows hD h.databases (hD.faces _ _ _ _ h.databases) s.dbt.nodupKeys
    (fun e he => AList.mem_lookup_iff.mpr he) fun e he => AList.mem_lookup_iff.mpr he).bind ?_
  rintro ⟨res, dbt, w⟩ ⟨_, dbt', w'⟩ ⟨rfl, hdatabases⟩
  by_cases hok : res.ok
  · simp only [if_pos hok]
    refine ((h.databases_eq (hD.clear _ _ _ _ hdatabases)).setWdb none).bind ?_
    rintro s₁ t₁ ⟨h₁, _, _⟩
    exact .ok ⟨rfl, h₁⟩
  · simp only [if_neg hok]
    exact .ok ⟨rfl, h.databases_eq hdatabases⟩

end Similar

/-! ### The commands on the users and the roles -/

namespace Similar

omit [Store σ] [Store τ] [Database δ ω] [Database δ' ω'] in
/-- A write to the users, with whatever is made of its result. -/
theorem writeUsers (h : Similar allowed RS RD s t) {x : Outcome (Ambry.Result × σ)}
    {y : Outcome (Ambry.Result × τ)} (hxy : Follows (fun a b => a.1 = b.1 ∧ RS a.2 b.2) x y) :
    Follows (Agree allowed RS RD)
      (do let (res, users) ← x; return (toRes res, { s with users }))
      (do let (res, users) ← y; return (toRes res, { t with users })) := by
  refine hxy.bind ?_
  rintro ⟨res, users⟩ ⟨_, users'⟩ ⟨rfl, husers⟩
  exact .ok ⟨rfl, h.users_eq husers⟩

section
variable (hS : StoreFollows RS) (cmd fd)
include hS

omit [Database δ ω] [Database δ' ω'] in
theorem appendRoles (h : Similar allowed RS RD s t) (buff : Bytes) (names : List Bytes) :
    appendRoles s.roles buff names = appendRoles t.roles buff names := by
  induction names generalizing buff with
  | nil => rfl
  | cons name names ih => rw [Aci.appendRoles, Aci.appendRoles, ih, hS.contains _ _ h.roles]

omit [Database δ ω] [Database δ' ω'] in
theorem addRoles (h : Similar allowed RS RD s t) (data : Bytes) (names : List Bytes) :
    addRoles s.roles data names = addRoles t.roles data names := by
  induction names generalizing data with
  | nil => rfl
  | cons name names ih => rw [Aci.addRoles, Aci.addRoles, ih, hS.contains _ _ h.roles]

omit [Database δ ω] [Database δ' ω'] in
theorem createUserCb (h : Similar allowed RS RD s t) :
    Follows (Agree allowed RS RD) (createUserCb cmd fd s) (createUserCb cmd fd t) := by
  rw [Aci.createUserCb, Aci.createUserCb]
  split
  case h_2 => exact .error
  split
  · exact .ok ⟨rfl, h⟩
  rw [hS.size _ _ h.users]
  split
  · exact (h.setPerms _ _).writeUsers (hS.set _ _ h.users _ _)
  rw [h.appendRoles hS]
  split
  · exact .ok ⟨rfl, h⟩
  · exact h.writeUsers (hS.set _ _ h.users _ _)

omit [Database δ ω] [Database δ' ω'] in
theorem addRolesCb (h : Similar allowed RS RD s t) :
    Follows (Agree allowed RS RD) (addRolesCb cmd fd s) (addRolesCb cmd fd t) := by
  rw [Aci.addRolesCb, Aci.addRolesCb]
  split
  case h_2 => exact .error
  rw [hS.get _ _ h.users]
  split
  · exact .ok ⟨rfl, h⟩
  rw [h.addRoles hS]
  split
  · exact .ok ⟨rfl, h⟩
  · exact h.writeUsers (hS.update _ _ h.users _ _)

omit [Database δ ω] [Database δ' ω'] in
theorem removeRolesCb (h : Similar allowed RS RD s t) :
    Follows (Agree allowed RS RD) (removeRolesCb cmd fd s) (removeRolesCb cmd fd t) := by
  rw [Aci.removeRolesCb, Aci.removeRolesCb]
  split
  case h_2 => exact .error
  rw [hS.get _ _ h.users]
  split
  · exact .ok ⟨rfl, h⟩
  · refine .after fun out _ => ?_
    exact h.writeUsers (hS.update _ _ h.users _ _)

omit [Database δ ω] [Database δ' ω'] in
theorem loginCb (h : Similar allowed RS RD s t) :
    Follows (Agree allowed RS RD) (loginCb cmd fd s) (loginCb cmd fd t) := by
  rw [Aci.loginCb, Aci.loginCb, ← h.logins]
  split
  · exact .ok ⟨rfl, h⟩
  split
  case h_2 => exact .error
  rw [hS.get _ _ h.users]
  split
  · exact .ok ⟨rfl, h⟩
  · refine .after fun userpass _ => ?_
    split
    · exact .ok ⟨rfl, h⟩
    · exact .ok ⟨rfl, h.logins_eq _⟩

omit [Database δ ω] [Database δ' ω'] in
theorem deleteUserCb (h : Similar allowed RS RD s t) :
    Follows (Agree allowed RS RD) (deleteUserCb cmd fd s) (deleteUserCb cmd fd t) := by
  refine .after fun name _ => ?_
  refine (hS.erase _ _ h.users name).bind ?_
  rintro ⟨res, users⟩ ⟨_, users'⟩ ⟨rfl, husers⟩
  dsimp only
  split
  · exact .ok ⟨rfl, h.users_eq husers⟩
  · exact .ok ⟨rfl, h.users_eq husers⟩

omit [Database δ ω] [Database δ' ω'] in
theorem deleteRoleCb (h : Similar allowed RS RD s t) :
    Follows (Agree allowed RS RD) (deleteRoleCb cmd fd s) (deleteRoleCb cmd fd t) := by
  refine .after fun name _ => ?_
  refine (hS.erase _ _ h.roles name).bind ?_
  rintro ⟨res, roles⟩ ⟨_, roles'⟩ ⟨rfl, hroles⟩
  dsimp only
  split
  · exact .ok ⟨rfl, h.roles_eq hroles⟩
  · exact .ok ⟨rfl, h.roles_eq hroles⟩

omit [Database δ ω] [Database δ' ω'] in
theorem showUsersCb (h : Similar allowed RS RD s t) :
    Follows (Agree allowed RS RD) (showUsersCb cmd fd s) (showUsersCb cmd fd t) := by
  rw [Aci.showUsersCb, Aci.showUsersCb, hS.entries _ _ h.users]
  exact .after fun out _ => .ok ⟨rfl, h⟩

variable [Machine]

omit [Database δ ω] [Database δ' ω'] in
theorem createRoleCb (h : Similar allowed RS RD s t) :
    Follows (Agree allowed RS RD) (createRoleCb cmd fd s) (createRoleCb cmd fd t) := by
  rw [Aci.createRoleCb, Aci.createRoleCb]
  split
  case h_2 => exact .error
  split
  · exact .ok ⟨rfl, h⟩
  split
  · exact .ok ⟨rfl, h⟩
  · refine (hS.set _ _ h.roles _ _).bind ?_
    rintro ⟨res, roles⟩ ⟨_, roles'⟩ ⟨rfl, hroles⟩
    exact .ok ⟨rfl, h.roles_eq hroles⟩

omit [Database δ ω] [Database δ' ω'] in
theorem showRolesCb (h : Similar allowed RS RD s t) :
    Follows (Agree allowed RS RD) (showRolesCb cmd fd s) (showRolesCb cmd fd t) := by
  rw [Aci.showRolesCb, Aci.showRolesCb, hS.entries _ _ h.roles]
  exact .after fun out _ => .ok ⟨rfl, h⟩

omit [Database δ ω] [Database δ' ω'] in
theorem userRolesCb (h : Similar allowed RS RD s t) :
    Follows (Agree allowed RS RD) (userRolesCb cmd fd s) (userRolesCb cmd fd t) := by
  refine .after fun username _ => ?_
  rw [hS.get _ _ h.users]
  split
  · exact .ok ⟨rfl, h⟩
  · have hbody : userRolesBody s.roles = userRolesBody t.roles := by
      funext out role
      rw [userRolesBody, userRolesBody, hS.get _ _ h.roles]
    rw [hbody]
    exact .after fun out _ => .ok ⟨rfl, h⟩

omit [Database δ ω] [Database δ' ω'] in
theorem calculatePerms (h : Similar allowed RS RD s t) (needed : FlagT) :
    s.calculatePerms fd needed = t.calculatePerms fd needed := by
  have hbody : Interpreter.permsBody s.roles = Interpreter.permsBody t.roles := by
    funext state role
    rw [Interpreter.permsBody, Interpreter.permsBody, hS.get _ _ h.roles]
  rw [Interpreter.calculatePerms, Interpreter.calculatePerms, h.logins, hS.get _ _ h.users, hbody]

end

/-! ### One step, and a run -/

section
variable [Machine] (hS : StoreFollows RS) (hD : DatabasesFollow allowed RD)
include hS hD

theorem callFn (h : Similar allowed RS RD s t) (fn : CmdFN) :
    Follows (Agree allowed RS RD) (Interpreter.callFn fn cmd fd s) (Interpreter.callFn fn cmd fd t) := by
  cases fn with
  | null => exact .error
  | openCb => exact h.openCb cmd fd hD
  | closeCb => exact h.closeCb cmd fd hD
  | switchCb => exact h.switchCb cmd fd hD
  | cacheModeCb => exact h.cacheModeCb cmd fd hD
  | setCb => exact h.updateSetImpl cmd fd hD fun key value => .set key value
  | getCb => exact h.getCb cmd fd hD
  | closeAllCb => exact h.closeAllCb cmd fd hD
  | destroyCb => exact h.destroyCb cmd fd hD
  | destroyAllCb => exact h.destroyAllCb cmd fd hD
  | cmdsCb =>
    refine Follows.bind (R := Eq) ?_ ?_
    · rw [h.ct]
      exact .refl _
    · rintro out _ rfl
      exact .ok ⟨rfl, h⟩
  | updateCb => exact h.updateSetImpl cmd fd hD fun key value => .update key value
  | eraseCb => exact h.eraseCb cmd fd hD
  | listOpenCb => exact h.listOpenCb cmd fd hD
  | createUserCb => exact h.createUserCb cmd fd hS
  | createRoleCb => exact h.createRoleCb cmd fd hS
  | loginCb => exact h.loginCb cmd fd hS
  | addRolesCb => exact h.addRolesCb cmd fd hS
  | removeRolesCb => exact h.removeRolesCb cmd fd hS
  | logoutCb =>
    refine .ok ⟨rfl, ?_⟩
    rw [← h.logins]
    exact h.logins_eq _
  | deleteUserCb => exact h.deleteUserCb cmd fd hS
  | deleteRoleCb => exact h.deleteRoleCb cmd fd hS
  | activeUsersCb =>
    refine .ok ⟨?_, h⟩
    rw [h.logins]
  | showRolesCb => exact h.showRolesCb cmd fd hS
  | userRolesCb => exact h.userRolesCb cmd fd hS
  | showUsersCb => exact h.showUsersCb cmd fd hS
  | workingDbCb => exact h.workingDbCb cmd fd hD

theorem interpret (h : Similar allowed RS RD s t) :
    Follows (Agree allowed RS RD) (s.interpret Interpreter.callFn cmd fd)
      (t.interpret Interpreter.callFn cmd fd) := by
  rw [Interpreter.interpret, Interpreter.interpret, ← h.ct]
  split
  · exact .ok ⟨rfl, h⟩
  split
  · exact .ok ⟨rfl, h⟩
  rw [Interpreter.getWdb, Interpreter.getWdb, h.logins]
  split
  · exact .ok ⟨rfl, h⟩
  rw [h.calculatePerms fd hS]
  refine .after fun permitted _ => ?_
  split
  · exact h.callFn hS hD _
  · exact .ok ⟨rfl, h⟩

theorem handle (h : Similar allowed RS RD s t) (e : Interpreter.Event) :
    Follows (Agree allowed RS RD) (s.handle e) (t.handle e) := by
  cases e with
  | command fd cmd => exact h.interpret hS hD
  | hangup fd =>
    refine .ok ⟨rfl, ?_⟩
    rw [← h.logins]
    exact h.logins_eq _

omit [Machine] [Database δ ω] [Database δ' ω'] hD in
theorem initCommands (h : Similar allowed RS RD s t) :
    Similar allowed RS RD s.initCommands t.initCommands := by
  refine ⟨?_, h.restrictedDbs, h.allowed, h.logins, h.users, h.roles, h.databases⟩
  rw [Interpreter.initCommands, Interpreter.initCommands, h.ct, hS.size _ _ h.users]

omit [Database δ ω] [Database δ' ω'] hD in
/-- Two servers that start with related users, roles and databases. -/
theorem new {dbt : DBTable δ} {dbt' : DBTable δ'} {users roles : σ} {users' roles' : τ} {w : ω}
    {w' : ω'} (husers : RS users users') (hroles : RS roles roles') (hdatabases : RD dbt w dbt' w')
    (hallowed : ∀ name, name ∉ [str "__ACI_USERS__", str "__ACI_ROLES__"] → allowed name) :
    Follows (Similar allowed RS RD) (Interpreter.new dbt users roles w)
      (Interpreter.new dbt' users' roles' w') := by
  refine (hS.set _ _ hroles _ _).bind ?_
  rintro ⟨_, roles₁⟩ ⟨_, roles₁'⟩ ⟨_, hroles₁⟩
  exact .ok ⟨rfl, rfl, hallowed, rfl, husers, hroles₁, hdatabases⟩

/-- What one server does in a step, the other does as well. -/
theorem step {e : Interpreter.Event × Result} {s' : Interpreter σ δ ω}
    (h : Similar allowed RS RD s t) (hstep : Steps Interpreter.next (fun _ _ => True) s e s') :
    ∃ t', Steps Interpreter.next (fun _ _ => True) t e t' ∧ Similar allowed RS RD s' t' := by
  obtain ⟨⟨_, t'⟩, hhandle, rfl, hsimilar⟩ := h.handle hS hD e.1 _ (toOption_eq_some.mp hstep.2)
  exact ⟨t', ⟨trivial, toOption_eq_some.mpr hhandle⟩, hsimilar⟩

theorem run {start : Interpreter σ δ ω} {start' : Interpreter τ δ' ω'}
    {trace : List (Interpreter.Event × Result)} (h : Similar allowed RS RD start start')
    (hrun : Run (Steps Interpreter.next fun _ _ => True) start trace s) :
    ∃ t, Run (Steps Interpreter.next fun _ _ => True) start' trace t ∧
      Similar allowed RS RD s t :=
  hrun.forward h fun _ _ _ _ hsimilar hstep => hsimilar.step hS hD hstep

end

end Similar

end

end Ambry.Aci
