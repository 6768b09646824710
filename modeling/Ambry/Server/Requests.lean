import Ambry.Server.Client
import Ambry.Server.Framing

/-!
# Requests

The header that the client writes counts characters, and the server takes as many
bytes. The two agree on a message exactly when all its characters are one byte
long, and one longer character puts every later frame out of step.
-/

namespace Ambry

open Foundation

namespace Server

variable {s s' : Server} {fd : Int} {rest : Bytes} {cuts : Nat → Nat}

variable [Machine]

/-- Up to some point the messages have been delivered, and the frames of the others are still to
come. -/
def InStep (messages : List Text) (fd : Int) (got : List Bytes) (s : Server) : Prop :=
  ∃ sent rest stream cuts, messages = sent ++ rest ∧ got = sent.map encode ∧
    prepareAll rest = some stream ∧ s.sockets fd = Inlet.steady stream cuts

/-- The server takes as many bytes of a message as it has characters. -/
theorem recvFrom_message {message : Text} {messages : List Text} {stream : Bytes}
    (hsize : (encode message).length < 2 ^ 31)
    (hprepare : prepareAll (message :: messages) = some stream)
    (h : s.sockets fd = Inlet.steady stream cuts) (logins : Logins) :
    ∃ frames cuts', prepareAll messages = some frames ∧
      s.recvFrom ⟨fd, false⟩ logins =
        some ((some ⟨(encode message).take message.length, fd⟩, logins),
          s.setSocket fd
            (Inlet.steady ((encode message).drop message.length ++ frames) cuts')) := by
  obtain ⟨frames, hframes, rfl⟩ := prepareAll_cons hprepare
  have hle := length_le_encode message
  have hbody : ((encode message).take message.length).length = message.length :=
    List.length_take_of_le hle
  have hstream : image Machine.order (UInt32.ofNat message.length) ++ encode message ++ frames =
      image Machine.order (UInt32.ofNat ((encode message).take message.length).length) ++
        (encode message).take message.length ++
        ((encode message).drop message.length ++ frames) := by
    rw [hbody]
    simp only [List.append_assoc, List.append_cancel_left_eq]
    rw [← List.append_assoc, List.take_append_drop]
  rw [hstream] at h
  obtain ⟨cuts', hrecv⟩ := recvFrom_frame (by omega) h logins
  exact ⟨frames, cuts', hframes, hrecv⟩

variable {messages : List Text} {got : List Bytes}

/-- The frames of ASCII texts are the frames of their bytes. -/
theorem prepareAll_eq (hascii : ∀ message ∈ messages, ∀ c ∈ message, c.val < 128)
    (hsize : ∀ message ∈ messages, (encode message).length < 2 ^ 31) :
    prepareAll messages = some ((messages.map encode).flatMap frame) := by
  induction messages with
  | nil => rfl
  | cons message messages ih =>
    obtain ⟨hc, hcs⟩ := List.forall_mem_cons.mp hascii
    obtain ⟨hlen, hlens⟩ := List.forall_mem_cons.mp hsize
    rw [prepareAll, prepareMessage_of_lt hlen, ih hcs hlens, ← length_encode_eq_iff.mpr hc]
    rfl

theorem inStep_iff (hascii : ∀ message ∈ messages, ∀ c ∈ message, c.val < 128)
    (hsize : ∀ message ∈ messages, (encode message).length < 2 ^ 31) :
    InStep messages fd got s ↔ Pending (messages.map encode) fd got s := by
  constructor
  · rintro ⟨sent, rest, stream, cuts, rfl, rfl, hprepare, hsocket⟩
    rw [prepareAll_eq (fun m hm => hascii m (by simp [hm])) fun m hm => hsize m (by simp [hm])]
      at hprepare
    cases hprepare
    exact ⟨rest.map encode, List.map_append, cuts, hsocket⟩
  · rintro ⟨rest, hbodies, cuts, hsocket⟩
    obtain ⟨sent, later, rfl, rfl, rfl⟩ := List.map_eq_append_iff.mp hbodies
    refine ⟨sent, later, _, cuts, rfl, rfl, ?_, hsocket⟩
    exact prepareAll_eq (fun m hm => hascii m (by simp [hm])) fun m hm => hsize m (by simp [hm])

/-- No event reports that the peer of this connection is gone while bytes that it has sent are still
to be read. -/
def Attended (fd : Int) (s : Server) (action : Action) : Prop :=
  Allowed s action ∧
    match action with
    | .accept _ _ _ => True
    | .recvFromAll events _ => ⟨fd, true⟩ ∈ events → (s.sockets fd).stream = []

/-- What is still to come on a connection when it is dropped is never handed over. -/
theorem delivered_dropped {start : Server} {trace : List (Action × List Incoming)}
    (hopen : fd ∈ start.opened) (hdropped : fd ∉ start.watched)
    (hrun : Run (Steps next Allowed) start trace s) : delivered fd trace = [] := by
  have hrun := hrun.history
    (I := fun t s => fd ∈ s.opened ∧ fd ∉ s.watched ∧ delivered fd t = [])
    ⟨hopen, hdropped, rfl⟩ ?_
  · exact hrun.2.2
  · rintro t s ⟨action, ms⟩ s' ⟨hopen, hdropped, hnone⟩ hstep
    obtain ⟨hopen', hdropped', hms⟩ := next_dropped hopen hdropped hstep
    refine ⟨hopen', hdropped', ?_⟩
    rw [delivered_concat, hnone, hms]
    rfl

/-- Whatever the server does, the messages that come in on the connection are the first of those
that were sent, and what is left to come is the rest. They are all of them once nothing is left to
come; until then the connection is watched, and a call in which it is ready, with any others that
are, hands over the next one. -/
def Faithful (messages : List Text) : Prop :=
  ∀ (fd : Int) (start : Server) (stream : Bytes) (cuts : Nat → Nat),
    prepareAll messages = some stream → fd ∈ start.opened → fd ∈ start.watched →
    start.sockets fd = Inlet.steady stream cuts →
    ∀ trace s, Run (Steps next (Attended fd)) start trace s →
      InStep messages fd (delivered fd trace) s ∧
      ((s.sockets fd).stream = [] → delivered fd trace = messages.map encode) ∧
      ((s.sockets fd).stream ≠ [] → fd ∈ s.watched ∧
        ∀ events logins, (events.map EpollEvent.fd).Nodup → ⟨fd, false⟩ ∈ events →
          (∀ event ∈ events, event.rdhup = false ∧
            (event.fd ≠ fd → ∃ body, s.Ready event.fd body)) →
          ∃ message ms s', messages[(delivered fd trace).length]? = some message ∧
            s.next (.recvFromAll events logins) = some (ms, s') ∧
            messagesFrom fd ms = [encode message])

theorem next_message {message : Text} {messages : List Text} {stream : Bytes}
    (hsize : (encode message).length < 2 ^ 31)
    (hprepare : prepareAll (message :: messages) = some stream)
    (h : s.sockets fd = Inlet.steady stream cuts) (logins : Logins) :
    ∃ s', s.next (.recvFromAll [⟨fd, false⟩] logins) =
      some ([⟨(encode message).take message.length, fd⟩], s') := by
  obtain ⟨frames, cuts', _, hrecv⟩ := recvFrom_message hsize hprepare h logins
  refine ⟨s.setSocket fd
    (Inlet.steady ((encode message).drop message.length ++ frames) cuts'), ?_⟩
  simp only [next, Server.recvFromAll, hrecv]
  rfl

theorem run_inStep {start : Server} {trace : List (Action × List Incoming)}
    (hascii : ∀ message ∈ messages, ∀ c ∈ message, c.val < 128)
    (hsize : ∀ message ∈ messages, (encode message).length < 2 ^ 31) (hopen : fd ∈ start.opened)
    (hstart : InStep messages fd [] start) (hrun : Run (Steps next Allowed) start trace s) :
    InStep messages fd (delivered fd trace) s := by
  rw [inStep_iff hascii hsize] at hstart ⊢
  have hbodies : ∀ body ∈ messages.map encode, body.length < 2 ^ 31 := List.forall_mem_map.mpr hsize
  have hrun := hrun.history
    (I := fun t s => fd ∈ s.opened ∧ Pending (messages.map encode) fd (delivered fd t) s)
    ⟨hopen, hstart⟩ ?_
  · exact hrun.2
  · rintro t s ⟨action, ms⟩ s' ⟨hopen, h⟩ hstep
    rw [delivered_concat]
    exact h.next hbodies hopen hstep

/-- A connection with something left to come had it before, and no step has dropped it. -/
theorem Pending.watched {bodies : List Bytes} {action : Action} {ms : List Incoming}
    (h : Pending bodies fd got s) (h' : Pending bodies fd (got ++ messagesFrom fd ms) s')
    (hwatched : (s.sockets fd).stream ≠ [] → fd ∈ s.watched)
    (hstep : Steps Server.next (Attended fd) s (action, ms) s') (hstream : (s'.sockets fd).stream ≠ []) :
    fd ∈ s'.watched := by
  obtain ⟨⟨_, hattended⟩, hnext⟩ := hstep
  have hbefore : (s.sockets fd).stream ≠ [] := by
    intro hempty
    have hall := h.stream_eq_nil_iff.mp hempty
    have hle := h'.eq_append.length_le
    have hnone : messagesFrom fd ms = [] := by
      rw [List.length_append, hall] at hle
      exact List.length_eq_zero_iff.mp (by omega)
    rw [hnone, List.append_nil] at h'
    exact hstream (h'.stream_eq_nil_iff.mpr hall)
  cases action with
  | accept cfd socket status =>
    cases hnext
    exact watched_accept s cfd socket status (hwatched hbefore)
  | recvFromAll events logins =>
    obtain ⟨⟨⟨ms', logins'⟩, s''⟩, hrecv, hnext⟩ := Option.map_eq_some_iff.mp hnext
    cases hnext
    exact (recvFromAll_watched hrecv).mpr ⟨hwatched hbefore, mt hattended hbefore⟩

theorem run_watched {start : Server} {trace : List (Action × List Incoming)}
    (hascii : ∀ message ∈ messages, ∀ c ∈ message, c.val < 128)
    (hsize : ∀ message ∈ messages, (encode message).length < 2 ^ 31) (hopen : fd ∈ start.opened)
    (hwatched : fd ∈ start.watched) (hstart : InStep messages fd [] start)
    (hrun : Run (Steps next (Attended fd)) start trace s) (hstream : (s.sockets fd).stream ≠ []) :
    fd ∈ s.watched := by
  rw [inStep_iff hascii hsize] at hstart
  have hbodies : ∀ body ∈ messages.map encode, body.length < 2 ^ 31 := List.forall_mem_map.mpr hsize
  have hrun := hrun.history
    (I := fun t s => fd ∈ s.opened ∧ Pending (messages.map encode) fd (delivered fd t) s ∧
      ((s.sockets fd).stream ≠ [] → fd ∈ s.watched))
    ⟨hopen, hstart, fun _ => hwatched⟩ ?_
  · exact hrun.2.2 hstream
  · rintro t s ⟨action, ms⟩ s' ⟨hopen, h, hwatched⟩ hstep
    rw [delivered_concat]
    obtain ⟨hopen', h'⟩ := h.next hbodies hopen ⟨hstep.1.1, hstep.2⟩
    exact ⟨hopen', h', h.watched h' hwatched hstep⟩

/-- The call to which the connection is ready. -/
theorem Pending.handed (hsize : ∀ message ∈ messages, (encode message).length < 2 ^ 31)
    (h : Pending (messages.map encode) fd got s) (hstream : (s.sockets fd).stream ≠ [])
    {events : List EpollEvent} (hnodup : (events.map EpollEvent.fd).Nodup)
    (hmem : ⟨fd, false⟩ ∈ events)
    (hready : ∀ event ∈ events, event.rdhup = false ∧
      (event.fd ≠ fd → ∃ body, s.Ready event.fd body)) (logins : Logins) :
    ∃ message ms s', messages[got.length]? = some message ∧
      s.next (.recvFromAll events logins) = some (ms, s') ∧ messagesFrom fd ms = [encode message] := by
  obtain ⟨body, hbody, hfirst⟩ := h.ready (List.forall_mem_map.mpr hsize) hstream
  rw [List.getElem?_map] at hbody
  obtain ⟨message, hmessage, rfl⟩ := Option.map_eq_some_iff.mp hbody
  have hall : ∀ event ∈ events, event.rdhup = false ∧
      ∃ body, (event.fd = fd → body = encode message) ∧ s.Ready event.fd body := by
    intro event hevent
    obtain ⟨hthere, hother⟩ := hready event hevent
    refine ⟨hthere, ?_⟩
    rcases eq_or_ne event.fd fd with hfd | hfd
    · exact ⟨encode message, fun _ => rfl, hfd ▸ hfirst⟩
    · obtain ⟨body, hbody⟩ := hother hfd
      exact ⟨body, fun heq => absurd heq hfd, hbody⟩
  obtain ⟨ms, s', hrecv, hms⟩ : ∃ ms s', s.recvFromAll events logins = some ((ms, logins), s') ∧
      List.Forall₂ (fun event m => m.fd = event.fd ∧ (event.fd = fd → m.message = encode message))
        events ms :=
    recvFromAll_ready (P := fun other body => other = fd → body = encode message) hnodup hall
  have hfd : fd ∈ events.map EpollEvent.fd := List.mem_map.mpr ⟨_, hmem, rfl⟩
  obtain ⟨body, hbody, hfrom⟩ := messagesFrom_of_mem
    (P := fun other body => other = fd → body = encode message) hms hnodup hfd
  refine ⟨message, ms, s', hmessage, ?_, ?_⟩
  · rw [Server.next, hrecv]
    rfl
  · rw [hfrom, hbody rfl]

section
variable {start : Server} {stream : Bytes} {trace : List (Action × List Incoming)}

/-- A message that is delivered as it was sent has as many bytes as characters. -/
theorem Faithful.turn (h : Faithful messages) (hprepare : prepareAll messages = some stream)
    (hopen : fd ∈ start.opened) (hfd : fd ∈ start.watched)
    (hsocket : start.sockets fd = Inlet.steady stream cuts)
    (hsize : ∀ message ∈ messages, (encode message).length < 2 ^ 31)
    (hrun : Run (Steps next (Attended fd)) start trace s) {sent later : List Text} {message : Text}
    (hmessages : messages = sent ++ message :: later)
    (hgot : delivered fd trace = sent.map encode) :
    (encode message).length = message.length ∧ fd ∈ s.watched ∧
      ∃ s', s.next (.recvFromAll [⟨fd, false⟩] ∅) = some ([⟨encode message, fd⟩], s') := by
  obtain ⟨⟨sent', rest, stream', cuts', hsplit, hgot', hprepare', hsocket'⟩, hall, hturn⟩ :=
    h fd start stream cuts hprepare hopen hfd hsocket trace s hrun
  have hlength : sent.length = sent'.length := by
    have hlength := congrArg List.length (hgot.symm.trans hgot')
    simpa only [List.length_map] using hlength
  obtain ⟨rfl, rfl⟩ := List.append_inj (hmessages.symm.trans hsplit) hlength
  have hmem : message ∈ messages := by simp [hmessages]
  have hstream : (s.sockets fd).stream ≠ [] := by
    intro hempty
    have hlast := hall hempty
    rw [hgot, hmessages] at hlast
    simpa using congrArg List.length hlast
  obtain ⟨hwatched, hturn⟩ := hturn hstream
  obtain ⟨message', ms, s', hmessage, hnext, hfrom⟩ :=
    hturn [⟨fd, false⟩] ∅ (List.nodup_singleton _) (List.mem_singleton_self _) (by simp)
  obtain rfl : message = message' := by
    simpa [hgot, hmessages] using hmessage
  obtain ⟨s'', hnext'⟩ := next_message (hsize _ hmem) hprepare' hsocket' ∅
  obtain ⟨rfl, rfl⟩ : ms = [⟨(encode message).take message.length, fd⟩] ∧ s' = s'' := by
    simpa using hnext.symm.trans hnext'
  have hbody : (encode message).take message.length = encode message := by
    simpa [messagesFrom] using hfrom
  refine ⟨?_, hwatched, s', ?_⟩
  · rw [← hbody]
    exact List.length_take_of_le (length_le_encode message)
  · rw [hnext, hbody]

/-- Messages that are delivered as they were sent can be taken one after the other. -/
theorem Faithful.exists_run (h : Faithful messages) (hprepare : prepareAll messages = some stream)
    (hopen : fd ∈ start.opened) (hfd : fd ∈ start.watched)
    (hsocket : start.sockets fd = Inlet.steady stream cuts)
    (hsize : ∀ message ∈ messages, (encode message).length < 2 ^ 31) {sent : List Text} :
    ∀ {rest : List Text}, messages = sent ++ rest → ∃ trace s,
      Run (Steps next (Attended fd)) start trace s ∧ delivered fd trace = sent.map encode := by
  induction sent using List.reverseRecOn with
  | nil =>
    intro rest _
    exact ⟨[], start, .nil, rfl⟩
  | append_singleton sent message ih =>
    intro rest hmessages
    rw [List.append_assoc, List.singleton_append] at hmessages
    obtain ⟨trace, s, hrun, hgot⟩ := ih hmessages
    obtain ⟨_, hwatched, s', hnext⟩ := h.turn hprepare hopen hfd hsocket hsize hrun hmessages hgot
    have hattended : Attended fd s (.recvFromAll [⟨fd, false⟩] ∅) := by
      simpa [Attended, Allowed] using hwatched
    have hstep : Steps next (Attended fd) s
        (.recvFromAll [⟨fd, false⟩] ∅, [⟨encode message, fd⟩]) s' := ⟨hattended, hnext⟩
    refine ⟨_, s', hrun.snoc hstep, ?_⟩
    have hlast : messagesFrom fd [⟨encode message, fd⟩] = [encode message] := by
      simp [messagesFrom]
    rw [delivered, List.flatMap_append, ← delivered, hgot, List.flatMap_singleton, hlast,
      List.map_append, List.map_singleton]

end

theorem Faithful.length_eq (h : Faithful messages)
    (hsize : ∀ message ∈ messages, (encode message).length < 2 ^ 31) {message : Text}
    (hmem : message ∈ messages) : (encode message).length = message.length := by
  obtain ⟨sent, later, hmessages⟩ := List.append_of_mem hmem
  obtain ⟨stream, hprepare⟩ := prepareAll_of_lt hsize
  let start : Server := ⟨{0}, {0}, {0}, fun _ => Inlet.steady stream fun _ => 0⟩
  have hsocket : start.sockets 0 = Inlet.steady stream fun _ => 0 := rfl
  have hfd : (0 : Int) ∈ ({0} : Finset Int) := Finset.mem_singleton_self 0
  obtain ⟨trace, s, hrun, hgot⟩ := h.exists_run hprepare hfd hfd hsocket hsize hmessages
  exact (h.turn hprepare hfd hfd hsocket hsize hrun hmessages hgot).1

/-- The messages of a connection whose bytes are all read before it is dropped are delivered as they
were sent exactly when they are ASCII. -/
theorem recvFromAll_faithful_iff (hsize : ∀ message ∈ messages, (encode message).length < 2 ^ 31) :
    Faithful messages ↔ ∀ message ∈ messages, ∀ c ∈ message, c.val < 128 := by
  constructor
  · intro h message hmem
    exact length_encode_eq_iff.mp (h.length_eq hsize hmem)
  · intro hascii fd start stream cuts hprepare hopen hfd hsocket trace s hrun
    have hstart : InStep messages fd [] start :=
      ⟨[], messages, stream, cuts, rfl, rfl, hprepare, hsocket⟩
    have hallowed : Run (Steps next Allowed) start trace s := by
      apply hrun.mono
      rintro s e s' ⟨hattended, hnext⟩
      exact ⟨hattended.1, hnext⟩
    have h := run_inStep hascii hsize hopen hstart hallowed
    have hpending := (inStep_iff hascii hsize).mp h
    refine ⟨h, hpending.stream_eq_nil_iff.mp, ?_⟩
    intro hstream
    refine ⟨run_watched hascii hsize hopen hfd hstart hrun hstream, ?_⟩
    intro events logins hnodup hmem hready
    exact hpending.handed hsize hstream hnodup hmem hready logins

end Server

section
attribute [local instance] littleEndian

theorem recvFromAll_faithful_ascii : Server.Faithful [['h', 'i'], [], ['g', 'e', 't', ' ', 'k']] :=
  (Server.recvFromAll_faithful_iff (by decide)).mpr (by simp)

/-- One accented letter is delivered as the first of its two bytes. -/
theorem recvFromAll_unfaithful :
    ¬ ∀ messages, (∀ message ∈ messages, (encode message).length < 2 ^ 31) →
      Server.Faithful messages := by
  intro hall
  have hsize : ∀ message ∈ [['é']], (encode message).length < 2 ^ 31 := by decide
  exact absurd ((hall _ hsize).length_eq hsize (List.mem_singleton_self _)) (by decide)

end

end Ambry
