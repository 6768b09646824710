import Ambry.Aci.Effects
import Ambry.Aci.Stores
import Ambry.Server.Framing
import Ambry.Server.Log
import Ambry.Server.Responses

/-!
# `server/server.cpp`: the command loop

The loop takes the messages that one `epoll_wait` announces, and executes the
commands of each before it turns to the next. Connections are served in turns,
but the interpreter knows of one sequence of commands only; what goes out on a
connection are the results of its own commands.
-/

namespace Ambry

open Foundation Aci Interpreter

/-- What the threads of a running server work on. -/
structure Service (σ δ ω : Type) where
  server : Server
  inter : Interpreter σ δ ω
  /-- the sending halves of the sockets, those of connections to come as well -/
  outlets : Int → Outlet
  verbose : Bool
  /-- the lines that the command loop has written -/
  log : List Bytes
  /-- the time at which each line is written -/
  clock : Nat → TimeText

namespace Service

variable {σ δ ω : Type}

/-- `LOG`. -/
def writeLog (line : TimeText → Option Bytes) (s : Service σ δ ω) : Option (Service σ δ ω) :=
  if s.verbose then (line (s.clock s.log.length)).map fun l => { s with log := s.log ++ [l] }
  else some s

def receivedLine (message : Bytes) (time : TimeText) : Option Bytes :=
  Logger.info time (Fmt.literal (str "recieved message: \x7b\x7d")) [message]

def sendOn [Machine] (fd : Int) (result : Aci.Result) (s : Service σ δ ω) : Service σ δ ω :=
  { s with outlets := Function.update s.outlets fd (sendResult (s.outlets fd) result) }

variable [Store σ] [Database δ ω] [Machine]

/-- The loop over the commands of a message. -/
def execute (fd : Int) : List Cmd → Service σ δ ω →
    Option (List (Event × Aci.Result) × Service σ δ ω)
  | [], s => some ([], s)
  | c :: cmd, s => do
    let (result, inter) ← (s.inter.interpret callFn c fd).toOption
    let s ← { s with inter }.writeLog fun time => executedLine time c fd inter
    let (executed, s) ← execute fd cmd (s.sendOn fd result)
    return ((.command fd c, result) :: executed, s)

/-- The loop over the messages. -/
def serve : List Incoming → Service σ δ ω →
    Option (List (Event × Aci.Result) × Service σ δ ω)
  | [], s => some ([], s)
  | ⟨m, fd⟩ :: messages, s => do
    let s ← s.writeLog (receivedLine m)
    let cmd ← parse m
    let (executed, s) ← s.execute fd cmd
    let (others, s) ← serve messages s
    return (executed ++ others, s)

/-- One turn of `command_loop`. -/
def turn (events : List EpollEvent) (s : Service σ δ ω) :
    Option ((List Incoming × List (Event × Aci.Result)) × Service σ δ ω) := do
  let ((messages, logins), server) ← s.server.recvFromAll events s.inter.logins
  let (executed, s) ← serve messages { s with server, inter := { s.inter with logins } }
  return ((messages, executed), s)

inductive Action
  | accept (cfd : Int) (socket : Inlet) (status : Int)
  | turn (events : List EpollEvent)

/-- The messages of a turn, and the commands that were executed with their results. -/
abbrev Reply := List Incoming × List (Event × Aci.Result)

def next (s : Service σ δ ω) : Action → Option (Reply × Service σ δ ω)
  | .accept cfd socket status =>
    some (([], []), { s with server := s.server.accept cfd socket status })
  | .turn events => s.turn events

/-- What the step asks of the server. -/
def asked (s : Service σ δ ω) : Action → Server.Action
  | .accept cfd socket status => .accept cfd socket status
  | .turn events => .recvFromAll events s.inter.logins

def Allowed (s : Service σ δ ω) (a : Action) : Prop := s.server.Allowed (s.asked a)

omit [Store σ] [Database δ ω] [Machine] in
instance (s : Service σ δ ω) : (a : Action) → Decidable (s.Allowed a)
  | .accept cfd _ _ => inferInstanceAs (Decidable (cfd ∉ s.server.opened))
  | .turn events => inferInstanceAs (Decidable ((events.map EpollEvent.fd).Nodup ∧
      ∀ event ∈ events, event.fd ∈ s.server.watched))

end Service

/-! ### What the interpreter sees of a run -/

namespace Service

def hangups (events : List EpollEvent) : List (Event × Aci.Result) :=
  (events.filter EpollEvent.rdhup).map fun e => (.hangup e.fd, output [])

/-- The hangups of a turn come before its commands. -/
def seen : Action × Reply → List (Event × Aci.Result)
  | (.accept _ _ _, _) => []
  | (.turn events, _, executed) => hangups events ++ executed

/-- The commands of a connection and their results. -/
def dialogue (fd : Int) (history : List (Event × Aci.Result)) : List (Cmd × Aci.Result) :=
  history.filterMap fun e =>
    match e.1 with
    | .command fd' cmd => if fd' = fd then some (cmd, e.2) else none
    | .hangup _ => none

def commandsOn (fd : Int) (history : List (Event × Aci.Result)) : List Cmd :=
  (dialogue fd history).map Prod.fst

def resultsOn (fd : Int) (history : List (Event × Aci.Result)) : List Aci.Result :=
  (dialogue fd history).map Prod.snd

def commandsOf (messages : List Bytes) : List Cmd := messages.flatMap fun m => (parse m).getD []

def deliveredOn (fd : Int) (trace : List (Action × Reply)) : List Bytes :=
  trace.flatMap fun e => Server.messagesFrom fd e.2.1

section
variable {fd : Int} {history history' : List (Event × Aci.Result)}

@[simp] theorem dialogue_append :
    dialogue fd (history ++ history') = dialogue fd history ++ dialogue fd history' :=
  List.filterMap_append

@[simp] theorem resultsOn_append :
    resultsOn fd (history ++ history') = resultsOn fd history ++ resultsOn fd history' := by
  simp [resultsOn]

@[simp] theorem commandsOn_append :
    commandsOn fd (history ++ history') = commandsOn fd history ++ commandsOn fd history' := by
  simp [commandsOn]

theorem dialogue_hangups (events : List EpollEvent) : dialogue fd (hangups events) = [] := by
  simp [dialogue, hangups, List.filterMap_map]

@[simp] theorem commandsOn_hangups (events : List EpollEvent) :
    commandsOn fd (hangups events) = [] := by
  rw [commandsOn, dialogue_hangups, List.map_nil]

@[simp] theorem resultsOn_hangups (events : List EpollEvent) :
    resultsOn fd (hangups events) = [] := by
  rw [resultsOn, dialogue_hangups, List.map_nil]

theorem dialogue_command (cmd : Cmd) (r : Aci.Result) (other : Int) :
    dialogue fd [(.command other cmd, r)] = if other = fd then [(cmd, r)] else [] := by
  by_cases hfd : other = fd
  · simp [dialogue, hfd]
  · simp [dialogue, hfd]

@[simp] theorem commandsOf_append (ms ms' : List Bytes) :
    commandsOf (ms ++ ms') = commandsOf ms ++ commandsOf ms' :=
  List.flatMap_append

end

/-! ### One history -/

section
variable {σ δ ω : Type} [Machine] {s s' s'' : Service σ δ ω}
  {line : TimeText → Option Bytes}

omit [Machine] in
/-- Nothing but the log is written to. -/
theorem writeLog_eq_some (h : s.writeLog line = some s') :
    s'.server = s.server ∧ s'.inter = s.inter ∧ s'.outlets = s.outlets := by
  rw [writeLog] at h
  split at h
  · obtain ⟨_, _, rfl⟩ := Option.map_eq_some_iff.mp h
    exact ⟨rfl, rfl, rfl⟩
  · cases h
    exact ⟨rfl, rfl, rfl⟩

variable [Store σ] [Database δ ω] {history history' : List (Event × Aci.Result)}

/-- The commands were executed one after the other, and each result went to the connection of its
command. -/
structure Served (s : Service σ δ ω) (history : List (Event × Aci.Result)) (s' : Service σ δ ω) :
    Prop where
  run : Run (Steps Interpreter.next fun _ _ => True) s.inter history s'.inter
  server : s'.server = s.server
  outlets : ∀ fd, s'.outlets fd = sendResults (resultsOn fd history) (s.outlets fd)

theorem Served.nil (s : Service σ δ ω) : Served s [] s := ⟨.nil, rfl, fun _ => rfl⟩

theorem Served.append (h : Served s history s') (h' : Served s' history' s'') :
    Served s (history ++ history') s'' where
  run := h.run.append h'.run
  server := h'.server.trans h.server
  outlets fd := by
    rw [h'.outlets, h.outlets, resultsOn_append, sendResults, sendResults, sendResults,
      List.foldl_append]

theorem served_writeLog (h : s.writeLog line = some s') : Served s [] s' := by
  obtain ⟨hserver, hinter, houtlets⟩ := writeLog_eq_some h
  refine ⟨?_, hserver, fun fd => congrFun houtlets fd⟩
  rw [hinter]
  exact .nil

theorem served_command {fd : Int} {c : Cmd} {result : Aci.Result} {inter : Interpreter σ δ ω}
    (hcall : (s.inter.interpret callFn c fd).toOption = some (result, inter))
    (hlog : ({ s with inter } : Service σ δ ω).writeLog line = some s') :
    Served s [(.command fd c, result)] (s'.sendOn fd result) := by
  obtain ⟨hserver, hinter, houtlets⟩ := writeLog_eq_some hlog
  refine ⟨?_, hserver, fun other => ?_⟩
  · have hnext : Steps Interpreter.next (fun _ _ => True) s.inter (.command fd c, result) inter :=
      ⟨trivial, hcall⟩
    change Run _ _ _ s'.inter
    rw [hinter]
    exact Run.cons hnext .nil
  · rw [resultsOn, dialogue_command, sendOn]
    dsimp only
    rw [houtlets]
    by_cases hfd : fd = other
    · rw [if_pos hfd, hfd, Function.update_self]
      rfl
    · rw [if_neg hfd, Function.update_of_ne (Ne.symm hfd)]
      rfl

theorem execute_served {fd : Int} {cmd : List Cmd} (h : s.execute fd cmd = some (history, s')) :
    Served s history s' ∧ history.map Prod.fst = cmd.map (Event.command fd) := by
  induction cmd generalizing s history with
  | nil =>
    cases h
    exact ⟨.nil _, rfl⟩
  | cons c cmd ih =>
    obtain ⟨⟨result, inter⟩, hcall, h⟩ := Option.bind_eq_some_iff.mp h
    obtain ⟨s₁, hlog, h⟩ := Option.bind_eq_some_iff.mp h
    obtain ⟨⟨executed, s₂⟩, hothers, h⟩ := Option.bind_eq_some_iff.mp h
    cases h
    obtain ⟨hserved, hevents⟩ := ih hothers
    exact ⟨(served_command hcall hlog).append hserved, congrArg (Event.command fd c :: ·) hevents⟩

/-- What the messages ask for. -/
def eventsOf (messages : List Incoming) : List Event :=
  messages.flatMap fun m => (commandsOf [m.message]).map (Event.command m.fd)

theorem serve_served {messages : List Incoming} (h : s.serve messages = some (history, s')) :
    Served s history s' ∧ history.map Prod.fst = eventsOf messages := by
  induction messages generalizing s history with
  | nil =>
    cases h
    exact ⟨.nil _, rfl⟩
  | cons message messages ih =>
    obtain ⟨s₁, hlog, h⟩ := Option.bind_eq_some_iff.mp h
    obtain ⟨cmd, hparse, h⟩ := Option.bind_eq_some_iff.mp h
    obtain ⟨⟨executed, s₂⟩, hexecute, h⟩ := Option.bind_eq_some_iff.mp h
    obtain ⟨⟨others, s₃⟩, hothers, h⟩ := Option.bind_eq_some_iff.mp h
    cases h
    obtain ⟨hserved, hevents⟩ := execute_served hexecute
    obtain ⟨hserved', hevents'⟩ := ih hothers
    refine ⟨((served_writeLog hlog).append hserved).append hserved', ?_⟩
    have hcmd : commandsOf [message.message] = cmd := by simp [commandsOf, hparse]
    simp only [List.map_append, hevents, hevents', eventsOf, List.flatMap_cons, hcmd]

omit [Machine] in
theorem commandsOn_of_events {fd : Int} {messages : List Incoming}
    (h : history.map Prod.fst = eventsOf messages) :
    commandsOn fd history = commandsOf (Server.messagesFrom fd messages) := by
  have hcommands : commandsOn fd history = (history.map Prod.fst).filterMap fun e =>
      match e with
      | .command fd' cmd => if fd' = fd then some cmd else none
      | .hangup _ => none := by
    rw [commandsOn, dialogue, List.map_filterMap, List.filterMap_map]
    apply List.filterMap_congr
    rintro ⟨_ | _, r⟩ _
    · simp only [Function.comp_apply]
      split
      · rfl
      · rfl
    · rfl
  rw [hcommands, h]
  clear h hcommands
  induction messages with
  | nil => rfl
  | cons message messages ih =>
    rw [eventsOf, List.flatMap_cons, List.filterMap_append, ← eventsOf, ih, List.filterMap_map]
    by_cases hfd : message.fd = fd
    · simp [hfd, Server.messagesFrom, commandsOf]
    · simp [hfd, Server.messagesFrom]

theorem run_hangups {events : List EpollEvent} {inter : Interpreter σ δ ω}
    {server server' : Server} {messages : List Incoming} {logins : Logins}
    (h : server.recvFromAll events inter.logins = some ((messages, logins), server')) :
    Run (Steps Interpreter.next fun _ _ => True) inter (hangups events) { inter with logins } := by
  induction events generalizing server inter messages with
  | nil =>
    cases h
    exact .nil
  | cons event events ih =>
    obtain ⟨m, logins₁, server₁, ms, hfirst, hothers, rfl⟩ := Server.recvFromAll_cons h
    have ih := @ih { inter with logins := logins₁ } _ _ hothers
    obtain ⟨hgone, -, rfl, -⟩ | ⟨hthere, -, rfl, -⟩ := Server.recvFrom_cases hfirst
    · rw [hangups, List.filter_cons_of_pos hgone]
      exact Run.cons ⟨trivial, rfl⟩ ih
    · rw [hangups, List.filter_cons_of_neg (by simp [hthere])]
      exact ih

theorem turn_some {events : List EpollEvent} {messages : List Incoming}
    {executed : List (Event × Aci.Result)} (h : s.turn events = some ((messages, executed), s')) :
    ∃ logins server, s.server.recvFromAll events s.inter.logins = some ((messages, logins), server) ∧
      serve messages { s with server, inter := { s.inter with logins } } = some (executed, s') := by
  obtain ⟨⟨⟨messages, logins⟩, server⟩, hrecv, h⟩ := Option.bind_eq_some_iff.mp h
  obtain ⟨⟨executed, s₁⟩, hserve, h⟩ := Option.bind_eq_some_iff.mp h
  cases h
  exact ⟨logins, server, hrecv, hserve⟩

/-- One step is a run of the interpreter and a step of the server, and the results go to the
connections of their commands. -/
structure Stepped (s : Service σ δ ω) (e : Action × Reply) (s' : Service σ δ ω) : Prop where
  run : Run (Steps Interpreter.next fun _ _ => True) s.inter (seen e) s'.inter
  server : s.server.next (s.asked e.1) = some (e.2.1, s'.server)
  outlets : ∀ fd, s'.outlets fd = sendResults (resultsOn fd (seen e)) (s.outlets fd)
  commands : ∀ fd, commandsOn fd (seen e) = commandsOf (Server.messagesFrom fd e.2.1)

theorem stepped {e : Action × Reply} (h : s.next e.1 = some (e.2, s')) : Stepped s e s' := by
  obtain ⟨action, messages, executed⟩ := e
  cases action with
  | accept cfd socket status =>
    cases h
    exact ⟨.nil, rfl, fun _ => rfl, fun _ => rfl⟩
  | turn events =>
    obtain ⟨logins, server, hrecv, hserve⟩ := turn_some h
    obtain ⟨hserved, hevents⟩ := serve_served hserve
    refine ⟨(run_hangups hrecv).append hserved.run, ?_, fun fd => ?_, fun fd => ?_⟩
    · rw [hserved.server]
      exact Option.map_eq_some_iff.mpr ⟨_, hrecv, rfl⟩
    · rw [hserved.outlets, seen, resultsOn_append, resultsOn_hangups, List.nil_append]
    · rw [seen, commandsOn_append, commandsOn_hangups, List.nil_append,
        commandsOn_of_events hevents]

/-- The server that steps along. -/
theorem run_server {start : Service σ δ ω} {trace : List (Action × Reply)}
    (hrun : Run (Steps next Allowed) start trace s) : ∃ requests,
      Run (Steps Server.next Server.Allowed) start.server requests s.server ∧
        ∀ fd, Server.delivered fd requests = deliveredOn fd trace := by
  refine hrun.history (I := fun trace s => ∃ requests,
      Run (Steps Server.next Server.Allowed) start.server requests s.server ∧
        ∀ fd, Server.delivered fd requests = deliveredOn fd trace) ⟨[], .nil, fun _ => rfl⟩ ?_
  rintro trace s ⟨action, reply⟩ s' ⟨requests, hrequests, hdelivered⟩ ⟨hallowed, hnext⟩
  have hstep : Steps Server.next Server.Allowed s.server (s.asked action, reply.1) s'.server :=
    ⟨hallowed, (stepped hnext).server⟩
  refine ⟨_, .snoc hrequests hstep, fun fd => ?_⟩
  rw [Server.delivered_concat, hdelivered, deliveredOn, deliveredOn, List.flatMap_append,
    List.flatMap_singleton]

section
variable {guard : Service σ δ ω → Action → Prop} {start : Service σ δ ω}
  {trace : List (Action × Reply)}

theorem run_commands (hrun : Run (Steps next guard) start trace s) (fd : Int) :
    commandsOn fd (trace.flatMap seen) = commandsOf (deliveredOn fd trace) := by
  refine hrun.history (I := fun trace _ =>
    commandsOn fd (trace.flatMap seen) = commandsOf (deliveredOn fd trace)) rfl ?_
  rintro trace s e s' ih ⟨_, hnext⟩
  rw [List.flatMap_append, List.flatMap_singleton, commandsOn_append, ih,
    (stepped hnext).commands, deliveredOn, deliveredOn, List.flatMap_append, commandsOf_append,
    List.flatMap_singleton]

theorem run_outlets (hrun : Run (Steps next guard) start trace s) (fd : Int) :
    s.outlets fd = sendResults (resultsOn fd (trace.flatMap seen)) (start.outlets fd) := by
  refine hrun.history (I := fun trace s =>
    s.outlets fd = sendResults (resultsOn fd (trace.flatMap seen)) (start.outlets fd)) rfl ?_
  rintro trace s e s' ih ⟨_, hnext⟩
  rw [List.flatMap_append, List.flatMap_singleton, resultsOn_append, (stepped hnext).outlets, ih,
    sendResults, sendResults, sendResults, List.foldl_append]

end

end

section
attribute [local instance] littleEndian

def noon : TimeText := ⟨str "01/01/26 12:00:00", by decide, by decide⟩

/-- A server that has just been started, with one user. -/
def started : Service Table Volume Disk where
  server := ⟨∅, ∅, ∅, fun _ => Inlet.steady [] fun _ => 0⟩
  inter := (serverOn rootOnly).initCommands
  outlets _ := Outlet.steady [] fun _ => 4096
  verbose := true
  log := []
  clock _ := noon

/-- A client connects and has sent these messages. -/
def connects (fd : Int) (messages : List String) : Action :=
  .accept fd (Inlet.steady (messages.flatMap fun m => frame (str m)) fun _ => 4096) 0

end

/-! ### Sessions -/

section
variable {σ δ ω : Type} [Machine] [Store σ] [Database δ ω] {s s' : Service σ δ ω} {fd : Int}

/-- What a round of events leaves of the connections and the logins. -/
structure Received (events : List EpollEvent) (logins logins' : Logins) (messages : List Incoming)
    (server server' : Server) : Prop where
  logins : ∀ fd ∈ logins', fd ∈ logins ∧ ⟨fd, true⟩ ∉ events
  watched : ∀ fd, fd ∈ server'.watched ↔ fd ∈ server.watched ∧ ⟨fd, true⟩ ∉ events
  messages : ∀ m ∈ messages, ⟨m.fd, false⟩ ∈ events

omit [Store σ] [Database δ ω] in
theorem recvFromAll_logins {events : List EpollEvent} {logins logins' : Logins}
    {messages : List Incoming} {server server' : Server}
    (h : server.recvFromAll events logins = some ((messages, logins'), server')) :
    ∀ fd ∈ logins', fd ∈ logins ∧ ⟨fd, true⟩ ∉ events := by
  induction events generalizing server logins messages with
  | nil =>
    cases h
    exact fun fd hfd => ⟨hfd, List.not_mem_nil⟩
  | cons event events ih =>
    obtain ⟨m, logins₁, server₁, ms, hfirst, hothers, rfl⟩ := Server.recvFromAll_cons h
    intro other hother
    obtain ⟨hkept, hevents⟩ := ih hothers other hother
    obtain ⟨fd, rdhup⟩ := event
    obtain ⟨rfl, _, rfl, _⟩ | ⟨rfl, _, rfl, _⟩ := Server.recvFrom_cases hfirst
    · obtain ⟨hne, hlogin⟩ := AList.mem_erase.mp hkept
      exact ⟨hlogin, by simpa [hevents] using hne⟩
    · exact ⟨hkept, by simpa using hevents⟩

omit [Store σ] [Database δ ω] in
theorem recvFromAll_messages {events : List EpollEvent} {logins logins' : Logins}
    {messages : List Incoming} {server server' : Server}
    (h : server.recvFromAll events logins = some ((messages, logins'), server')) :
    ∀ m ∈ messages, ⟨m.fd, false⟩ ∈ events := by
  induction events generalizing server logins messages with
  | nil =>
    cases h
    exact fun m hm => absurd hm List.not_mem_nil
  | cons event events ih =>
    obtain ⟨m, logins₁, server₁, ms, hfirst, hothers, rfl⟩ := Server.recvFromAll_cons h
    intro x hx
    obtain hx | hx := List.mem_append.mp hx
    · obtain ⟨fd, rdhup⟩ := event
      obtain ⟨_, rfl, _, _⟩ | ⟨rfl, hm, _, _⟩ := Server.recvFrom_cases hfirst
      · simp at hx
      · rw [hm x (Option.mem_toList.mp hx)]
        exact List.mem_cons_self
    · exact List.mem_cons_of_mem _ (ih hothers x hx)

omit [Store σ] [Database δ ω] in
theorem received {events : List EpollEvent} {logins logins' : Logins} {messages : List Incoming}
    {server server' : Server}
    (h : server.recvFromAll events logins = some ((messages, logins'), server')) :
    Received events logins logins' messages server server' :=
  ⟨recvFromAll_logins h, fun _ => Server.recvFromAll_watched h, recvFromAll_messages h⟩

omit [Store σ] [Database δ ω] in
/-- A message comes from a connection of which the events tell nothing else. -/
theorem message_watched {events : List EpollEvent} {logins logins' : Logins}
    {messages : List Incoming} {server server' : Server}
    (hallowed : server.Allowed (.recvFromAll events logins))
    (h : server.recvFromAll events logins = some ((messages, logins'), server'))
    {m : Incoming} (hm : m ∈ messages) : m.fd ∈ server'.watched := by
  obtain ⟨hnodup, hasked⟩ := hallowed
  have hevent := (received h).messages m hm
  refine ((received h).watched m.fd).mpr ⟨hasked _ hevent, fun hgone => ?_⟩
  have hsame := List.inj_on_of_nodup_map hnodup hevent hgone rfl
  cases hsame

/-- Only connections that are watched are logged in. -/
def Sessions (s : Service σ δ ω) : Prop :=
  (∀ fd ∈ s.inter.logins, fd ∈ s.server.watched) ∧ s.server.watched ⊆ s.server.opened

theorem run_logins {inter inter' : Interpreter σ δ ω} {history : List (Event × Aci.Result)}
    (hrun : Run (Steps Interpreter.next fun _ _ => True) inter history inter')
    (hfd : fd ∈ inter'.logins) :
    fd ∈ inter.logins ∨ ∃ cmd, Event.command fd cmd ∈ history.map Prod.fst := by
  revert hfd
  refine hrun.history (I := fun history inter' => fd ∈ inter'.logins →
    fd ∈ inter.logins ∨ ∃ cmd, Event.command fd cmd ∈ history.map Prod.fst) .inl ?_
  rintro history inter₁ ⟨e, r⟩ inter₂ ih ⟨_, hnext⟩ hfd
  obtain hfd | ⟨cmd, rfl⟩ := handle_logins (toOption_eq_some.mp hnext) hfd
  · obtain hold | ⟨cmd, hmem⟩ := ih hfd
    · exact .inl hold
    · exact .inr ⟨cmd, by simp [hmem]⟩
  · exact .inr ⟨cmd, by simp⟩

omit [Machine] [Store σ] [Database δ ω] in
theorem exists_message {messages : List Incoming} {cmd : Cmd}
    (h : Event.command fd cmd ∈ eventsOf messages) : ∃ m ∈ messages, m.fd = fd := by
  obtain ⟨m, hm, hmem⟩ := List.mem_flatMap.mp h
  obtain ⟨c, _, heq⟩ := List.mem_map.mp hmem
  cases heq
  exact ⟨m, hm, rfl⟩

theorem Sessions.next {e : Action × Reply} (h : Sessions s)
    (hstep : Steps next Allowed s e s') : Sessions s' := by
  obtain ⟨action, messages, executed⟩ := e
  obtain ⟨hallowed, hnext⟩ := hstep
  cases action with
  | accept cfd socket status =>
    cases hnext
    obtain ⟨hopened, hwatched⟩ := Server.accept_opened s.server cfd socket status
    constructor
    · intro fd hfd
      have hold := h.1 fd hfd
      simp only [Server.accept]
      split
      · exact hold
      · exact Finset.mem_insert_of_mem hold
    · rw [hopened]
      exact hwatched.trans (Finset.insert_subset_insert _ h.2)
  | turn events =>
    obtain ⟨logins, server, hrecv, hserve⟩ := turn_some hnext
    obtain ⟨hserved, hevents⟩ := serve_served hserve
    have hreceived := received hrecv
    obtain ⟨hopened, hwatched⟩ := Server.recvFromAll_opened hrecv
    rw [Sessions, hserved.server]
    constructor
    · intro fd hfd
      obtain hlogin | ⟨cmd, hmem⟩ := run_logins hserved.run hfd
      · obtain ⟨hold, hthere⟩ := hreceived.logins fd hlogin
        exact (hreceived.watched fd).mpr ⟨h.1 fd hold, hthere⟩
      · rw [hevents] at hmem
        obtain ⟨m, hm, rfl⟩ := exists_message hmem
        exact message_watched hallowed hrecv hm
    · rw [show server.opened = s.server.opened from hopened]
      exact hwatched.trans h.2

/-- The peer is gone. -/
def Gone (fd : Int) (s : Service σ δ ω) : Prop := fd ∈ s.server.opened ∧ fd ∉ s.server.watched

theorem Gone.next {e : Action × Reply} (h : Gone fd s) (hstep : Steps next Allowed s e s') :
    Gone fd s' := by
  obtain ⟨hallowed, hnext⟩ := hstep
  obtain ⟨hopen, hdropped, _⟩ := Server.next_dropped h.1 h.2 ⟨hallowed, (stepped hnext).server⟩
  exact ⟨hopen, hdropped⟩

/-- Nothing is executed for a connection that is not watched at the end of the turn. -/
theorem silent {e : Action × Reply} (hstep : Steps next Allowed s e s')
    (h : fd ∉ s'.server.watched) : dialogue fd (seen e) = [] := by
  obtain ⟨action, messages, executed⟩ := e
  obtain ⟨hallowed, hnext⟩ := hstep
  cases action with
  | accept => rfl
  | turn events =>
    obtain ⟨logins, server, hrecv, hserve⟩ := turn_some hnext
    obtain ⟨hserved, hevents⟩ := serve_served hserve
    rw [hserved.server] at h
    rw [seen, dialogue_append, dialogue_hangups, List.nil_append, dialogue,
      List.filterMap_eq_nil_iff]
    rintro ⟨_ | _, r⟩ hmem
    case command other cmd =>
      have hmem := List.mem_map_of_mem (f := Prod.fst) hmem
      rw [hevents] at hmem
      obtain ⟨m, hm, rfl⟩ := exists_message hmem
      have hwatched : m.fd ∈ server.watched := message_watched hallowed hrecv hm
      apply if_neg
      rintro rfl
      exact h hwatched
    case hangup => rfl

/-- What has no say in a turn is sent nothing. -/
theorem Gone.run {after : List (Action × Reply)} (h : Gone fd s)
    (hrun : Run (Steps Service.next Allowed) s after s') :
    Gone fd s' ∧ dialogue fd (after.flatMap seen) = [] := by
  refine hrun.history (I := fun after s' => Gone fd s' ∧ dialogue fd (after.flatMap seen) = [])
    ⟨h, rfl⟩ ?_
  rintro after s e s' ⟨hgone, hsilent⟩ hstep
  have hgone' := hgone.next hstep
  refine ⟨hgone', ?_⟩
  rw [List.flatMap_append, List.flatMap_singleton, dialogue_append, hsilent, silent hstep hgone'.2]
  rfl

end

section
attribute [local instance] littleEndian

end

end Service

end Ambry
