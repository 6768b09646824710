import Ambry.Aci.FileRefinement
import Ambry.Server.CommandLoop

/-!
# The server behind the sockets

Two servers whose interpreters cannot be told apart cannot be told apart by their
clients either: they take the same turns, write the same lines and send the same
bytes. So the clients of a server that is used with care talk to maps.
-/

namespace Ambry

open Foundation Aci Interpreter

namespace Service

section
variable {σ τ δ ω δ' ω' : Type} [Store σ] [Store τ] [Database δ ω] [Database δ' ω']
  {allowed : Bytes → Prop} {RS : σ → τ → Prop} {RD : DBTable δ → ω → DBTable δ' → ω' → Prop}

/-- Everything is the same outside the interpreters. -/
structure Alike (allowed : Bytes → Prop) (RS : σ → τ → Prop)
    (RD : DBTable δ → ω → DBTable δ' → ω' → Prop) (s : Service σ δ ω) (t : Service τ δ' ω') :
    Prop where
  server : s.server = t.server
  outlets : s.outlets = t.outlets
  verbose : s.verbose = t.verbose
  log : s.log = t.log
  clock : s.clock = t.clock
  inter : Similar allowed RS RD s.inter t.inter

variable {s s' : Service σ δ ω} {t : Service τ δ' ω'} {line : TimeText → Option Bytes}
  {history : List (Event × Aci.Result)}

namespace Alike

omit [Store σ] [Store τ] [Database δ ω] [Database δ' ω'] in
theorem withInter (h : Alike allowed RS RD s t) {inter : Interpreter σ δ ω}
    {inter' : Interpreter τ δ' ω'} (hinter : Similar allowed RS RD inter inter') :
    Alike allowed RS RD { s with inter } { t with inter := inter' } :=
  ⟨h.server, h.outlets, h.verbose, h.log, h.clock, hinter⟩

omit [Store σ] [Store τ] [Database δ ω] [Database δ' ω'] in
theorem writeLog (h : Alike allowed RS RD s t) (hline : s.writeLog line = some s') :
    ∃ t', t.writeLog line = some t' ∧ Alike allowed RS RD s' t' := by
  by_cases hverbose : s.verbose
  · have hverbose' : t.verbose := h.verbose ▸ hverbose
    rw [Service.writeLog, if_pos hverbose] at hline
    obtain ⟨l, hl, rfl⟩ := Option.map_eq_some_iff.mp hline
    rw [h.clock, h.log] at hl
    refine ⟨{ t with log := t.log ++ [l] }, ?_, h.server, h.outlets, h.verbose, ?_, h.clock, h.inter⟩
    · rw [Service.writeLog, if_pos hverbose', hl]
      rfl
    · rw [h.log]
  · have hverbose' : ¬ t.verbose := h.verbose ▸ hverbose
    rw [Service.writeLog, if_neg hverbose] at hline
    cases hline
    exact ⟨t, if_neg hverbose', h⟩

omit [Store σ] [Store τ] [Database δ ω] [Database δ' ω'] in
theorem permits {a : Action} (h : Alike allowed RS RD s t) (ha : s.Allowed a) : t.Allowed a := by
  have hasked : s.asked a = t.asked a := by
    cases a with
    | accept cfd socket status => rfl
    | turn events => exact congrArg (Server.Action.recvFromAll events) h.inter.logins
  rwa [Allowed, hasked, h.server] at ha

variable [Machine]

omit [Store σ] [Store τ] [Database δ ω] [Database δ' ω'] in
theorem sendOn (h : Alike allowed RS RD s t) (fd : Int) (result : Aci.Result) :
    Alike allowed RS RD (s.sendOn fd result) (t.sendOn fd result) := by
  refine ⟨h.server, ?_, h.verbose, h.log, h.clock, h.inter⟩
  rw [Service.sendOn, Service.sendOn, h.outlets]

omit [Store σ] [Store τ] [Database δ ω] [Database δ' ω'] [Machine] in
theorem executedLine_eq {inter : Interpreter σ δ ω} {inter' : Interpreter τ δ' ω'}
    (h : Similar allowed RS RD inter inter') (c : Cmd) (fd : Int) :
    (fun time => executedLine time c fd inter) = fun time => executedLine time c fd inter' := by
  funext time
  rw [executedLine, executedLine, fromWho, fromWho, h.logins]

variable (hS : StoreFollows RS) (hD : DatabasesFollow allowed RD)
include hS hD

theorem execute {fd : Int} {cmd : List Cmd} (h : Alike allowed RS RD s t)
    (hexecute : s.execute fd cmd = some (history, s')) :
    ∃ t', t.execute fd cmd = some (history, t') ∧ Alike allowed RS RD s' t' := by
  induction cmd generalizing s t history with
  | nil =>
    cases hexecute
    exact ⟨t, rfl, h⟩
  | cons c cmd ih =>
    obtain ⟨⟨result, inter⟩, hcall, hexecute⟩ := Option.bind_eq_some_iff.mp hexecute
    obtain ⟨s₁, hlog, hexecute⟩ := Option.bind_eq_some_iff.mp hexecute
    obtain ⟨⟨executed, s₂⟩, hothers, hexecute⟩ := Option.bind_eq_some_iff.mp hexecute
    cases hexecute
    obtain ⟨⟨_, inter'⟩, hcall', rfl, hinter⟩ :=
      h.inter.interpret hS hD _ (toOption_eq_some.mp hcall)
    rw [executedLine_eq hinter] at hlog
    obtain ⟨t₁, hlog', h₁⟩ := (h.withInter hinter).writeLog hlog
    obtain ⟨t₂, hothers', h₂⟩ := ih (h₁.sendOn fd result) hothers
    refine ⟨t₂, Option.bind_eq_some_iff.mpr ⟨_, toOption_eq_some.mpr hcall', ?_⟩, h₂⟩
    exact Option.bind_eq_some_iff.mpr ⟨t₁, hlog', Option.bind_eq_some_iff.mpr ⟨_, hothers', rfl⟩⟩

theorem serve {messages : List Incoming} (h : Alike allowed RS RD s t)
    (hserve : s.serve messages = some (history, s')) :
    ∃ t', t.serve messages = some (history, t') ∧ Alike allowed RS RD s' t' := by
  induction messages generalizing s t history with
  | nil =>
    cases hserve
    exact ⟨t, rfl, h⟩
  | cons message messages ih =>
    obtain ⟨s₁, hlog, hserve⟩ := Option.bind_eq_some_iff.mp hserve
    obtain ⟨cmd, hparse, hserve⟩ := Option.bind_eq_some_iff.mp hserve
    obtain ⟨⟨executed, s₂⟩, hexecute, hserve⟩ := Option.bind_eq_some_iff.mp hserve
    obtain ⟨⟨others, s₃⟩, hothers, hserve⟩ := Option.bind_eq_some_iff.mp hserve
    cases hserve
    obtain ⟨t₁, hlog', h₁⟩ := h.writeLog hlog
    obtain ⟨t₂, hexecute', h₂⟩ := h₁.execute hS hD hexecute
    obtain ⟨t₃, hothers', h₃⟩ := ih h₂ hothers
    refine ⟨t₃, Option.bind_eq_some_iff.mpr ⟨t₁, hlog', Option.bind_eq_some_iff.mpr ⟨cmd, hparse, ?_⟩⟩,
      h₃⟩
    exact Option.bind_eq_some_iff.mpr ⟨_, hexecute', Option.bind_eq_some_iff.mpr ⟨_, hothers', rfl⟩⟩

theorem next {a : Action} {reply : Reply} (h : Alike allowed RS RD s t)
    (hnext : s.next a = some (reply, s')) :
    ∃ t', t.next a = some (reply, t') ∧ Alike allowed RS RD s' t' := by
  cases a with
  | accept cfd socket status =>
    cases hnext
    refine ⟨_, rfl, ?_, h.outlets, h.verbose, h.log, h.clock, h.inter⟩
    rw [h.server]
  | turn events =>
    obtain ⟨logins, server, hreceive, hserve⟩ := Service.turn_some hnext
    rw [h.server, h.inter.logins] at hreceive
    have h₁ : Alike allowed RS RD { s with server, inter := { s.inter with logins } }
        { t with server, inter := { t.inter with logins } } :=
      ⟨rfl, h.outlets, h.verbose, h.log, h.clock, h.inter.logins_eq logins⟩
    obtain ⟨t₁, hserve', h₂⟩ := h₁.serve hS hD hserve
    exact ⟨t₁, Option.bind_eq_some_iff.mpr ⟨_, hreceive,
      Option.bind_eq_some_iff.mpr ⟨_, hserve', rfl⟩⟩, h₂⟩

theorem run {start : Service σ δ ω} {start' : Service τ δ' ω'} {trace : List (Action × Reply)}
    (h : Alike allowed RS RD start start') (hrun : Run (Steps Service.next Allowed) start trace s) :
    ∃ t, Run (Steps Service.next Allowed) start' trace t ∧ Alike allowed RS RD s t := by
  refine hrun.forward h fun s t e s' halike hstep => ?_
  obtain ⟨t', hnext, halike'⟩ := halike.next hS hD hstep.2
  exact ⟨t', ⟨halike.permits hstep.1, hnext⟩, halike'⟩

end Alike

end

/-- The same service over another interpreter. -/
def withInterpreter {σ δ ω τ δ' ω' : Type} (s : Service σ δ ω) (inter : Interpreter τ δ' ω') :
    Service τ δ' ω' where
  server := s.server
  inter
  outlets := s.outlets
  verbose := s.verbose
  log := s.log
  clock := s.clock

@[simp] theorem withInterpreter_withInterpreter {σ δ ω τ δ' ω' υ δ'' ω'' : Type}
    (s : Service σ δ ω) (inter : Interpreter τ δ' ω') (inter' : Interpreter υ δ'' ω'') :
    (s.withInterpreter inter).withInterpreter inter' = s.withInterpreter inter' := rfl

section
variable [Machine] [Paths] {fs : FileSystem} {disk : Disk} {users roles : Sparing DB}
  {userTable roleTable : Table}
  {start : Interpreter (Sparing DB) (Sparing (Tracked FileDB)) FileSystem}
  {first s : Service (Sparing DB) (Sparing (Tracked FileDB)) FileSystem}
  {trace : List (Action × Reply)}

/-- Whatever the clients of a server that is used with care do, they are sent the bytes that they
would be sent by a server over maps, and the log has the same lines. -/
theorem service_refines (husers : Holds users userTable) (hroles : Holds roles roleTable)
    (hkept : Kept ownNames fs disk) (hstart : Interpreter.new ∅ users roles fs = .ok start)
    (hfirst : first.inter = start.initCommands)
    (hrun : Run (Steps Service.next Allowed) first trace s) :
    ∃ (server : FileServer DB) (maps : Interpreter Table Volume Disk)
      (real : Service DB (Tracked FileDB) FileSystem) (ideal : Service Table Volume Disk),
      Interpreter.new (σ := DB) ∅ users roles fs = .ok server ∧
      Interpreter.new ∅ userTable roleTable disk = .ok maps ∧
      Run (Steps Service.next Allowed) (first.withInterpreter server.initCommands) trace real ∧
      Run (Steps Service.next Allowed) (first.withInterpreter maps.initCommands) trace ideal ∧
      real.outlets = ideal.outlets ∧ real.log = ideal.log ∧ real.inter.logins = ideal.inter.logins ∧
      Kept ownNames { real.inter.world with locked := ∅ } ideal.inter.world := by
  obtain ⟨server, hserver, hreal⟩ := real_start hstart
  obtain ⟨maps, hmaps, hideal⟩ := ideal_start husers hroles hkept hstart
  rw [← hfirst] at hreal hideal
  have halike := Alike.mk (s := first) (t := first.withInterpreter server.initCommands) rfl rfl rfl rfl rfl hreal
  have halike' := Alike.mk (s := first) (t := first.withInterpreter maps.initCommands) rfl rfl rfl rfl rfl hideal
  obtain ⟨real, hrealRun, h⟩ := halike.run sparingStore_follows (Sparing.files_follow _) hrun
  obtain ⟨ideal, hidealRun, h'⟩ :=
    halike'.run sparingTable_follows (files_refine ownNames fs.locked fs.content) hrun
  refine ⟨server, maps, real, ideal, hserver, hmaps, hrealRun, hidealRun,
    h.outlets.symm.trans h'.outlets, h.log.symm.trans h'.log,
    h.inter.logins.symm.trans h'.inter.logins, ?_⟩
  rw [← h.inter.databases.2]
  exact h'.inter.databases.kept.unlocked

end

section
attribute [local instance] littleEndian noLinks

def visits : List Action :=
  [connects 5 ["create_user root pw", "login root pw", "open a", "set k v", "close a"],
    connects 6 ["login root pw", "open a", "get k"], .turn [⟨5, false⟩],
    .turn [⟨5, false⟩, ⟨6, false⟩], .turn [⟨5, false⟩], .turn [⟨5, false⟩], .turn [⟨5, false⟩],
    .turn [⟨6, false⟩], .turn [⟨6, false⟩]]

/-- Two clients; the second one opens what the first one has closed. -/
theorem service_refines_two : ∃ (server : FileServer DB) (maps : Interpreter Table Volume Disk)
    (real : Service DB (Tracked FileDB) FileSystem) (ideal : Service Table Volume Disk)
    (trace : List (Action × Reply)),
      Interpreter.new ∅ ∅ ∅ ∅ = .ok maps ∧
      Run (Steps Service.next Allowed) (started.withInterpreter server.initCommands) trace real ∧
      Run (Steps Service.next Allowed) (started.withInterpreter maps.initCommands) trace ideal ∧
      (resultsOn 6 (trace.flatMap seen)).getLast? = some (output (str "v")) ∧
      real.outlets = ideal.outlets := by
  have hrun : ∃ start ∈ firstServer.toOption,
      ∃ out ∈ runAll next (started.withInterpreter start.initCommands) visits,
        Guarded next Allowed (started.withInterpreter start.initCommands) visits ∧
        (resultsOn 6 (out.1.flatMap seen)).getLast? = some (output (str "v")) := by
    decide +kernel
  obtain ⟨start, hstart, ⟨trace, s⟩, hout, hguard, hlast⟩ := hrun
  have hstart : firstServer = .ok start := toOption_eq_some.mp hstart
  have hinter : (started.withInterpreter start.initCommands).inter = start.initCommands := rfl
  have hrun := run_of_runAll hguard hout
  obtain ⟨server, maps, real, ideal, _, hmaps, hreal, hideal, houtlets, _⟩ :=
    service_refines (opened_holds _) (opened_holds _) emptyDir_kept hstart hinter hrun
  rw [withInterpreter_withInterpreter] at hreal hideal
  exact ⟨server, maps, real, ideal, trace, hmaps, hreal, hideal, hlast, houtlets⟩

end

end Service

end Ambry
