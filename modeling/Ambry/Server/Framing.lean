import Ambry.Server.Server

/-!
# Frames

A message on a connection is a header that counts its bytes, and then the bytes.
What the loop takes from a connection depends on the bytes that come in on it,
and neither on how they come in nor on the other connections.
-/

namespace Ambry

open Foundation

theorem recvall_steady_nil {cuts : Nat → Nat} {size : Nat} (h : 0 < size) (hsize : size < 2 ^ 31) :
    recvall (Inlet.steady [] cuts) size = none := by
  have hne : toSize (size : Int) ≠ 0 := by
    rw [toSize_natCast (by omega)]
    omega
  rw [recvall, recvallLoop, toInt_of_lt hsize, if_pos (by simpa using h),
    Inlet.recv_steady_nil hne]
  rfl

def frame [Machine] (body : Bytes) : Bytes := image Machine.order (UInt32.ofNat body.length) ++ body

/-- The frames of these bodies are what is still to come in. -/
def Waiting [Machine] (bodies : List Bytes) (socket : Inlet) : Prop :=
  ∃ cuts, socket = Inlet.steady (bodies.flatMap frame) cuts

namespace Server

variable {s s' : Server} {fd : Int} {rest : Bytes} {cuts : Nat → Nat}

theorem setSocket_self (s : Server) (fd : Int) (socket : Inlet) :
    (s.setSocket fd socket).sockets fd = socket :=
  Function.update_self ..

theorem setSocket_other {other : Int} (h : fd ≠ other) (s : Server) (socket : Inlet) :
    (s.setSocket other socket).sockets fd = s.sockets fd :=
  Function.update_of_ne h ..

theorem setSocket_setSocket (s : Server) (fd : Int) (socket socket' : Inlet) :
    (s.setSocket fd socket).setSocket fd socket' = s.setSocket fd socket' := by
  simp only [setSocket, Function.update_idem]

theorem recvall_steady {bs : Bytes} (h : s.sockets fd = Inlet.steady (bs ++ rest) cuts)
    (hlen : bs.length < 2 ^ 31) :
    ∃ cuts', s.recvall fd bs.length = some ((bs, (bs.length : Int)),
      s.setSocket fd (Inlet.steady rest cuts')) := by
  obtain ⟨cuts', hrecv⟩ := @Ambry.recvall_steady bs rest hlen cuts
  refine ⟨cuts', ?_⟩
  rw [recvall, h, hrecv]
  rfl

theorem recvall_socket {size : Nat} {r : Bytes × Int} (h : s.recvall fd size = some (r, s')) :
    ∃ socket, s' = s.setSocket fd socket := by
  obtain ⟨⟨r', socket⟩, _, h⟩ := Option.bind_eq_some_iff.mp h
  cases h
  exact ⟨socket, rfl⟩

theorem accept_sockets (s : Server) (cfd : Int) (socket : Inlet) (status : Int) :
    (s.accept cfd socket status).sockets = (s.setSocket cfd socket).sockets := by
  rw [accept]
  split
  · rfl
  · rfl

theorem accept_opened (s : Server) (cfd : Int) (socket : Inlet) (status : Int) :
    (s.accept cfd socket status).opened = insert cfd s.opened ∧
      (s.accept cfd socket status).watched ⊆ insert cfd s.watched := by
  rw [accept]
  split
  · exact ⟨rfl, Finset.subset_insert _ _⟩
  · exact ⟨rfl, Finset.Subset.refl _⟩

theorem watched_accept (s : Server) (cfd : Int) (socket : Inlet) (status : Int) :
    s.watched ⊆ (s.accept cfd socket status).watched := by
  rw [accept]
  split
  · exact Finset.Subset.refl _
  · exact Finset.subset_insert _ _

@[simp] theorem messagesFrom_append (fd : Int) (ms ms' : List Incoming) :
    messagesFrom fd (ms ++ ms') = messagesFrom fd ms ++ messagesFrom fd ms' := by
  simp [messagesFrom]

theorem messagesFrom_eq_nil {ms : List Incoming} (h : ∀ m ∈ ms, m.fd ≠ fd) :
    messagesFrom fd ms = [] := by
  rw [messagesFrom, List.filter_eq_nil_iff.mpr, List.map_nil]
  intro m hm
  simpa using h m hm

theorem messagesFrom_cons (fd : Int) (m : Incoming) (ms : List Incoming) :
    messagesFrom fd (m :: ms) = if m.fd = fd then m.message :: messagesFrom fd ms
      else messagesFrom fd ms := by
  rw [messagesFrom, List.filter_cons]
  by_cases hfd : m.fd = fd
  · simp [hfd, messagesFrom]
  · simp [hfd, messagesFrom]

section
variable {P : Int → Bytes → Prop} {events : List EpollEvent} {ms : List Incoming}

theorem messagesFrom_of_notMem
    (h : List.Forall₂ (fun event m => m.fd = event.fd ∧ P event.fd m.message) events ms)
    (hfd : fd ∉ events.map EpollEvent.fd) : messagesFrom fd ms = [] := by
  induction h with
  | nil => rfl
  | @cons event m events ms hfirst _ ih =>
    obtain ⟨hne, hothers⟩ := not_or.mp (mt List.mem_cons.mpr hfd)
    rw [messagesFrom_cons, hfirst.1, if_neg (Ne.symm hne)]
    exact ih hothers

/-- What one connection has of a call that hands over a message for each event. -/
theorem messagesFrom_of_mem
    (h : List.Forall₂ (fun event m => m.fd = event.fd ∧ P event.fd m.message) events ms)
    (hnodup : (events.map EpollEvent.fd).Nodup) (hfd : fd ∈ events.map EpollEvent.fd) :
    ∃ body, P fd body ∧ messagesFrom fd ms = [body] := by
  induction h with
  | nil => cases hfd
  | @cons event m events ms hfirst hall ih =>
    obtain ⟨hsame, hbody⟩ := hfirst
    obtain ⟨hnotin, hnodup⟩ := List.nodup_cons.mp hnodup
    rw [messagesFrom_cons, hsame]
    obtain rfl | hothers := List.mem_cons.mp hfd
    · refine ⟨m.message, hbody, ?_⟩
      rw [if_pos rfl, messagesFrom_of_notMem hall hnotin]
    · have hne : event.fd ≠ fd := fun heq => hnotin (heq ▸ hothers)
      rw [if_neg hne]
      exact ih hnodup hothers

end

theorem delivered_concat (fd : Int) (trace : List (Action × List Incoming)) (action : Action)
    (ms : List Incoming) :
    delivered fd (trace ++ [(action, ms)]) = delivered fd trace ++ messagesFrom fd ms := by
  simp [delivered]

variable [Machine] {body : Bytes} {bodies : List Bytes} {event : EpollEvent}
  {logins logins' : Logins} {m : Option Incoming}

/-- A header that counts the bytes that the call then takes. -/
theorem recvFrom_frame (hlen : body.length < 2 ^ 31)
    (h : s.sockets fd = Inlet.steady (frame body ++ rest) cuts) (logins : Logins) :
    ∃ cuts', s.recvFrom ⟨fd, false⟩ logins = some ((some ⟨body, fd⟩, logins),
      s.setSocket fd (Inlet.steady rest cuts')) := by
  rw [frame, List.append_assoc] at h
  set header := image Machine.order (UInt32.ofNat body.length)
  have hheader : header.length = 4 := image_length _ _
  have htake : header.take 4 = header := by rw [← hheader, List.take_length]
  have hsize : (ofImage Machine.order header : UInt32).toNat = body.length := by
    rw [ofImage_image]
    exact UInt32.toNat_ofNat_of_lt' (hlen.trans (by decide))
  obtain ⟨cuts₁, hfirst⟩ := recvall_steady h (by omega)
  obtain ⟨cuts₂, hsecond⟩ := recvall_steady (setSocket_self s fd (Inlet.steady (body ++ rest) cuts₁)) hlen
  refine ⟨cuts₂, ?_⟩
  rw [hheader] at hfirst
  rw [setSocket_setSocket] at hsecond
  simp only [recvFrom, hfirst, Option.bind_eq_bind, Option.bind_some, htake, hsize, hsecond]
  rfl

theorem recvFrom_nil (h : s.sockets fd = Inlet.steady [] cuts) (logins : Logins) :
    s.recvFrom ⟨fd, false⟩ logins = none := by
  simp [recvFrom, recvall, h, recvall_steady_nil]

/-- An event tells either that the peer is gone or that something has come in on the socket. -/
theorem recvFrom_cases (h : s.recvFrom event logins = some ((m, logins'), s')) :
    (event.rdhup = true ∧ m = none ∧ logins' = logins.erase event.fd ∧
      s' = { s with cons := s.cons.erase event.fd, watched := s.watched.erase event.fd }) ∨
    (event.rdhup = false ∧ (∀ x ∈ m, x.fd = event.fd) ∧ logins' = logins ∧
      ∃ socket, s' = s.setSocket event.fd socket) := by
  rw [recvFrom] at h
  split at h
  case isTrue hgone =>
    cases h
    exact .inl ⟨hgone, rfl, rfl, rfl⟩
  case isFalse hthere =>
    obtain ⟨⟨⟨m₁, n⟩, s₁⟩, hfirst, h⟩ := Option.bind_eq_some_iff.mp h
    obtain ⟨socket₁, rfl⟩ := recvall_socket hfirst
    refine .inr ⟨Bool.eq_false_of_not_eq_true hthere, ?_⟩
    dsimp only at h
    split at h
    · cases h
      refine ⟨?_, rfl, socket₁, rfl⟩
      rintro x ⟨⟩
    · obtain ⟨⟨⟨data, n₂⟩, s₂⟩, hsecond, h⟩ := Option.bind_eq_some_iff.mp h
      obtain ⟨socket₂, rfl⟩ := recvall_socket hsecond
      cases h
      refine ⟨?_, rfl, socket₂, setSocket_setSocket ..⟩
      rintro x ⟨⟩
      rfl

/-- What happens on one descriptor leaves the others as they are. -/
theorem recvFrom_other (h : s.recvFrom event logins = some ((m, logins'), s'))
    (hne : fd ≠ event.fd) :
    s'.sockets fd = s.sockets fd ∧ messagesFrom fd m.toList = [] := by
  obtain ⟨_, rfl, _, rfl⟩ | ⟨_, hfd, _, socket, rfl⟩ := recvFrom_cases h
  · exact ⟨rfl, rfl⟩
  · refine ⟨setSocket_other hne _ _, messagesFrom_eq_nil ?_⟩
    intro x hx
    rw [hfd x (Option.mem_toList.mp hx)]
    exact hne.symm

theorem recvFrom_opened (h : s.recvFrom event logins = some ((m, logins'), s')) :
    s'.opened = s.opened ∧ s'.watched ⊆ s.watched := by
  obtain ⟨_, _, _, rfl⟩ | ⟨_, _, _, socket, rfl⟩ := recvFrom_cases h
  · exact ⟨rfl, Finset.erase_subset _ _⟩
  · exact ⟨rfl, Finset.Subset.refl _⟩

section
variable {events : List EpollEvent} {ms : List Incoming}

theorem recvFromAll_cons (h : s.recvFromAll (event :: events) logins = some ((ms, logins'), s')) :
    ∃ m logins₁ s₁ ms₁, s.recvFrom event logins = some ((m, logins₁), s₁) ∧
      s₁.recvFromAll events logins₁ = some ((ms₁, logins'), s') ∧ ms = m.toList ++ ms₁ := by
  obtain ⟨⟨⟨m, logins₁⟩, s₁⟩, hfirst, h⟩ := Option.bind_eq_some_iff.mp h
  obtain ⟨⟨⟨ms₁, logins₂⟩, s₂⟩, hothers, h⟩ := Option.bind_eq_some_iff.mp h
  cases h
  exact ⟨m, logins₁, s₁, ms₁, hfirst, hothers, rfl⟩

theorem recvFromAll_opened (h : s.recvFromAll events logins = some ((ms, logins'), s')) :
    s'.opened = s.opened ∧ s'.watched ⊆ s.watched := by
  induction events generalizing s logins ms with
  | nil =>
    cases h
    exact ⟨rfl, Finset.Subset.refl _⟩
  | cons event events ih =>
    obtain ⟨m, logins₁, s₁, ms₁, hfirst, hothers, rfl⟩ := recvFromAll_cons h
    obtain ⟨hopened₁, hwatched₁⟩ := recvFrom_opened hfirst
    obtain ⟨hopened₂, hwatched₂⟩ := ih hothers
    exact ⟨hopened₂.trans hopened₁, hwatched₂.trans hwatched₁⟩

/-- The connections that are watched afterwards are those that no event reports as gone. -/
theorem recvFromAll_watched (h : s.recvFromAll events logins = some ((ms, logins'), s')) :
    fd ∈ s'.watched ↔ fd ∈ s.watched ∧ ⟨fd, true⟩ ∉ events := by
  induction events generalizing s logins ms with
  | nil =>
    cases h
    simp
  | cons event events ih =>
    obtain ⟨m, logins₁, s₁, ms₁, hfirst, hothers, rfl⟩ := recvFromAll_cons h
    rw [ih hothers]
    obtain ⟨other, rdhup⟩ := event
    obtain ⟨rfl, _, _, rfl⟩ | ⟨rfl, _, _, socket, rfl⟩ := recvFrom_cases hfirst
    · rw [Finset.mem_erase, List.mem_cons, not_or]
      simp [and_assoc, and_comm, and_left_comm]
    · simp [setSocket]

/-- A connection of which no event speaks. -/
theorem recvFromAll_other (h : s.recvFromAll events logins = some ((ms, logins'), s'))
    (hne : ∀ event ∈ events, fd ≠ event.fd) : messagesFrom fd ms = [] := by
  induction events generalizing s logins ms with
  | nil =>
    cases h
    rfl
  | cons event events ih =>
    obtain ⟨m, logins₁, s₁, ms₁, hfirst, hothers, rfl⟩ := recvFromAll_cons h
    obtain ⟨hevent, hevents⟩ := List.forall_mem_cons.mp hne
    rw [messagesFrom_append, (recvFrom_other hfirst hevent).2, ih hothers hevents]
    rfl

/-- A connection that has been dropped stays so, and nothing comes in on it. -/
theorem next_dropped {action : Action} (hopen : fd ∈ s.opened) (hdropped : fd ∉ s.watched)
    (hstep : Steps next Allowed s (action, ms) s') :
    fd ∈ s'.opened ∧ fd ∉ s'.watched ∧ messagesFrom fd ms = [] := by
  obtain ⟨hallowed, hnext⟩ := hstep
  cases action with
  | accept cfd socket status =>
    cases hnext
    obtain ⟨hopened, hwatched⟩ := accept_opened s cfd socket status
    refine ⟨hopened ▸ Finset.mem_insert_of_mem hopen, fun hfd => ?_, rfl⟩
    obtain rfl | hfd := Finset.mem_insert.mp (hwatched hfd)
    · exact hallowed hopen
    · exact hdropped hfd
  | recvFromAll events logins =>
    obtain ⟨⟨⟨ms', logins'⟩, s''⟩, hrecv, hnext⟩ := Option.map_eq_some_iff.mp hnext
    cases hnext
    obtain ⟨hopened, hwatched⟩ := recvFromAll_opened hrecv
    refine ⟨hopened ▸ hopen, fun hfd => hdropped (hwatched hfd), recvFromAll_other hrecv ?_⟩
    rintro event hevent rfl
    exact hdropped (hallowed.2 event hevent)

end

/-- Up to some point the bodies have been handed over, and the frames of the others are still to
come. -/
def Pending (bodies : List Bytes) (fd : Int) (got : List Bytes) (s : Server) : Prop :=
  ∃ rest, bodies = got ++ rest ∧ Waiting rest (s.sockets fd)

variable {got : List Bytes}

theorem Pending.recvFrom (hsize : ∀ body ∈ bodies, body.length < 2 ^ 31)
    (h : Pending bodies fd got s) (hrecv : s.recvFrom event logins = some ((m, logins'), s')) :
    Pending bodies fd (got ++ messagesFrom fd m.toList) s' := by
  obtain ⟨rest, rfl, cuts, hsocket⟩ := h
  rcases eq_or_ne fd event.fd with rfl | hne
  · obtain ⟨fd, _ | _⟩ := event
    · cases rest with
      | nil =>
        rw [recvFrom_nil hsocket] at hrecv
        cases hrecv
      | cons body rest =>
        rw [List.flatMap_cons] at hsocket
        obtain ⟨cuts', hbody⟩ := recvFrom_frame (hsize body (by simp)) hsocket logins
        cases hrecv.symm.trans hbody
        refine ⟨rest, ?_, cuts', setSocket_self ..⟩
        simp [messagesFrom]
    · cases hrecv
      refine ⟨rest, ?_, cuts, hsocket⟩
      simp [messagesFrom]
  · obtain ⟨hkept, hnone⟩ := recvFrom_other hrecv hne
    rw [hnone, List.append_nil]
    exact ⟨rest, rfl, cuts, hkept.trans hsocket⟩

theorem Pending.recvFromAll {events : List EpollEvent} {ms : List Incoming}
    (hsize : ∀ body ∈ bodies, body.length < 2 ^ 31) (h : Pending bodies fd got s)
    (hrecv : s.recvFromAll events logins = some ((ms, logins'), s')) :
    Pending bodies fd (got ++ messagesFrom fd ms) s' := by
  induction events generalizing s got logins ms with
  | nil =>
    cases hrecv
    simpa [messagesFrom] using h
  | cons event events ih =>
    obtain ⟨m, logins₁, s₁, ms₁, hfirst, hothers, rfl⟩ := recvFromAll_cons hrecv
    rw [messagesFrom_append, ← List.append_assoc]
    exact ih (h.recvFrom hsize hfirst) hothers

/-- The descriptor of an open connection is that of no other. -/
theorem Pending.next {action : Action} {ms : List Incoming}
    (hsize : ∀ body ∈ bodies, body.length < 2 ^ 31) (hopen : fd ∈ s.opened)
    (h : Pending bodies fd got s) (hstep : Steps next Allowed s (action, ms) s') :
    fd ∈ s'.opened ∧ Pending bodies fd (got ++ messagesFrom fd ms) s' := by
  obtain ⟨hallowed, hnext⟩ := hstep
  cases action with
  | accept cfd socket status =>
    cases hnext
    have hne : fd ≠ cfd := by
      rintro rfl
      exact hallowed hopen
    obtain ⟨rest, hbodies, hwaiting⟩ := h
    constructor
    · rw [(accept_opened s cfd socket status).1]
      exact Finset.mem_insert_of_mem hopen
    · refine ⟨rest, ?_, ?_⟩
      · simpa [messagesFrom] using hbodies
      · rw [accept_sockets, setSocket_other hne]
        exact hwaiting
  | recvFromAll events logins =>
    obtain ⟨⟨⟨ms', logins'⟩, s''⟩, hrecv, hnext⟩ := Option.map_eq_some_iff.mp hnext
    cases hnext
    constructor
    · rw [(recvFromAll_opened hrecv).1]
      exact hopen
    · exact h.recvFromAll hsize hrecv

theorem Pending.eq_append (h : Pending bodies fd got s) : got <+: bodies := by
  obtain ⟨rest, rfl, _⟩ := h
  exact List.prefix_append got rest

theorem flatMap_frame_eq_nil_iff {bodies : List Bytes} : bodies.flatMap frame = [] ↔ bodies = [] := by
  cases bodies with
  | nil => simp
  | cons body bodies =>
    have hlen : (image Machine.order (UInt32.ofNat body.length)).length = 4 := image_length _ _
    have hne : image Machine.order (UInt32.ofNat body.length) ≠ [] := by
      apply List.ne_nil_of_length_pos
      omega
    simp [frame, hne]

/-- A connection with nothing to come has handed over all, and one with something has a next body. -/
theorem Pending.stream_eq_nil_iff (h : Pending bodies fd got s) :
    (s.sockets fd).stream = [] ↔ got = bodies := by
  obtain ⟨rest, rfl, cuts, hsocket⟩ := h
  rw [hsocket]
  change rest.flatMap frame = [] ↔ _
  rw [flatMap_frame_eq_nil_iff]
  simp

/-- The next thing to come in is the frame of this body. -/
def Ready (s : Server) (fd : Int) (body : Bytes) : Prop :=
  body.length < 2 ^ 31 ∧ ∃ rest cuts, s.sockets fd = Inlet.steady (frame body ++ rest) cuts

/-- One call hands over the next body of every connection that is ready, in the order of the
events. -/
theorem recvFromAll_ready {P : Int → Bytes → Prop} {events : List EpollEvent}
    (hnodup : (events.map EpollEvent.fd).Nodup)
    (hready : ∀ event ∈ events, event.rdhup = false ∧
      ∃ body, P event.fd body ∧ s.Ready event.fd body) :
    ∃ ms s', s.recvFromAll events logins = some ((ms, logins), s') ∧
      List.Forall₂ (fun event m => m.fd = event.fd ∧ P event.fd m.message) events ms := by
  induction events generalizing s with
  | nil => exact ⟨[], s, rfl, .nil⟩
  | cons event events ih =>
    obtain ⟨⟨hthere, body, hbody, hlen, rest, cuts, hsocket⟩, hothers⟩ := List.forall_mem_cons.mp hready
    obtain ⟨hnotin, htail⟩ := List.nodup_cons.mp hnodup
    obtain ⟨fd, rdhup⟩ := event
    obtain rfl : rdhup = false := hthere
    obtain ⟨cuts', hfirst⟩ := recvFrom_frame hlen hsocket logins
    have hkept : ∀ event ∈ events, (s.setSocket fd (Inlet.steady rest cuts')).sockets event.fd =
        s.sockets event.fd := by
      intro event hevent
      apply setSocket_other
      rintro rfl
      exact hnotin (List.mem_map.mpr ⟨event, hevent, rfl⟩)
    obtain ⟨ms, s', hrest, hall⟩ :=
      ih (s := s.setSocket fd (Inlet.steady rest cuts')) htail (by
        intro event hevent
        obtain ⟨hthere, body, hbody, hlen, hsocket⟩ := hothers event hevent
        exact ⟨hthere, body, hbody, hlen, (hkept event hevent).symm ▸ hsocket⟩)
    refine ⟨⟨body, fd⟩ :: ms, s', ?_, .cons ⟨rfl, hbody⟩ hall⟩
    rw [Server.recvFromAll, hfirst]
    simp only [Option.bind_eq_bind, Option.bind_some, hrest]
    rfl

theorem Pending.ready (hsize : ∀ body ∈ bodies, body.length < 2 ^ 31) (h : Pending bodies fd got s)
    (hstream : (s.sockets fd).stream ≠ []) :
    ∃ body, bodies[got.length]? = some body ∧ s.Ready fd body := by
  obtain ⟨rest, rfl, cuts, hsocket⟩ := h
  cases rest with
  | nil =>
    rw [hsocket] at hstream
    exact absurd rfl hstream
  | cons body rest =>
    rw [List.flatMap_cons] at hsocket
    exact ⟨body, by simp, hsize body (by simp), _, cuts, hsocket⟩

/-- Each connection comes with its frames, no call fails and no peer closes. -/
def Peaceful (frames : Int → List Bytes) (s : Server) (action : Action) : Prop :=
  Allowed s action ∧
    match action with
    | .accept cfd socket _ => Waiting (frames cfd) socket
    | .recvFromAll events _ => ∀ event ∈ events, event.rdhup = false

/-- Whatever the order of the events, the messages of a connection are the first of its bodies, all
of them once nothing is left to come, and a call hands over the next one of each that is ready. -/
def Independent (frames : Int → List Bytes) : Prop :=
  ∀ start : Server, start.opened = ∅ → start.watched = ∅ →
    ∀ trace s, Run (Steps next (Peaceful frames)) start trace s →
      (∀ fd, delivered fd trace <+: frames fd) ∧
      (∀ fd ∈ s.opened, (s.sockets fd).stream = [] → delivered fd trace = frames fd) ∧
      ∀ events logins, (events.map EpollEvent.fd).Nodup →
        (∀ event ∈ events, event.rdhup = false ∧ event.fd ∈ s.watched ∧
          (s.sockets event.fd).stream ≠ []) →
        ∃ ms s', s.recvFromAll events logins = some ((ms, logins), s') ∧
          List.Forall₂ (fun event m => m.fd = event.fd ∧
            (frames event.fd)[(delivered event.fd trace).length]? = some m.message) events ms

structure InOrder (frames : Int → List Bytes) (trace : List (Action × List Incoming)) (s : Server) :
    Prop where
  watched : s.watched ⊆ s.opened
  pending : ∀ fd ∈ s.opened, Pending (frames fd) fd (delivered fd trace) s
  silent : ∀ fd ∉ s.opened, delivered fd trace = []

variable {frames : Int → List Bytes} {trace : List (Action × List Incoming)}

theorem InOrder.accept (h : InOrder frames trace s) {cfd : Int} {socket : Inlet} {status : Int}
    (hsize : ∀ fd, ∀ body ∈ frames fd, body.length < 2 ^ 31)
    (hnew : cfd ∉ s.opened) (hwaiting : Waiting (frames cfd) socket) :
    InOrder frames (trace ++ [(.accept cfd socket status, [])]) (s.accept cfd socket status) := by
  obtain ⟨hopened, hwatched⟩ := accept_opened s cfd socket status
  have hstep : Steps next Allowed s (.accept cfd socket status, []) (s.accept cfd socket status) :=
    ⟨hnew, rfl⟩
  constructor
  · rw [hopened]
    exact hwatched.trans (Finset.insert_subset_insert _ h.watched)
  · intro fd hfd
    rw [delivered_concat]
    rw [hopened] at hfd
    obtain rfl | hold := Finset.mem_insert.mp hfd
    · rw [h.silent fd hnew]
      refine ⟨frames fd, rfl, ?_⟩
      rw [accept_sockets, setSocket_self]
      exact hwaiting
    · exact ((h.pending fd hold).next (hsize fd) hold hstep).2
  · intro fd hfd
    rw [hopened, Finset.mem_insert, not_or] at hfd
    rw [delivered_concat, h.silent fd hfd.2]
    rfl

theorem InOrder.recvFromAll (h : InOrder frames trace s) {events : List EpollEvent}
    {ms : List Incoming} (hsize : ∀ fd, ∀ body ∈ frames fd, body.length < 2 ^ 31)
    (hwatched : ∀ event ∈ events, event.fd ∈ s.watched)
    (hrecv : s.recvFromAll events logins = some ((ms, logins'), s')) :
    InOrder frames (trace ++ [(.recvFromAll events logins, ms)]) s' := by
  obtain ⟨hopened, hkept⟩ := recvFromAll_opened hrecv
  constructor
  · rw [hopened]
    exact hkept.trans h.watched
  · intro fd hfd
    rw [hopened] at hfd
    rw [delivered_concat]
    exact (h.pending fd hfd).recvFromAll (hsize fd) hrecv
  · intro fd hfd
    rw [hopened] at hfd
    rw [delivered_concat, h.silent fd hfd]
    apply recvFromAll_other hrecv
    rintro event hevent rfl
    exact hfd (h.watched (hwatched event hevent))

theorem InOrder.next {action : Action} {ms : List Incoming}
    (hsize : ∀ fd, ∀ body ∈ frames fd, body.length < 2 ^ 31) (h : InOrder frames trace s)
    (hstep : Steps next (Peaceful frames) s (action, ms) s') :
    InOrder frames (trace ++ [(action, ms)]) s' := by
  obtain ⟨⟨hallowed, hpeaceful⟩, hnext⟩ := hstep
  cases action with
  | accept cfd socket status =>
    cases hnext
    exact h.accept hsize hallowed hpeaceful
  | recvFromAll events logins =>
    obtain ⟨⟨⟨ms', logins'⟩, s''⟩, hrecv, hnext⟩ := Option.map_eq_some_iff.mp hnext
    cases hnext
    exact h.recvFromAll hsize hallowed.2 hrecv

theorem run_inOrder {start : Server} (hsize : ∀ fd, ∀ body ∈ frames fd, body.length < 2 ^ 31)
    (hopened : start.opened = ∅) (hwatched : start.watched = ∅)
    (hrun : Run (Steps next (Peaceful frames)) start trace s) : InOrder frames trace s := by
  apply hrun.history (I := fun t s => InOrder frames t s)
  · constructor
    · rw [hopened, hwatched]
    · rw [hopened]
      intro fd hfd
      exact absurd hfd (Finset.notMem_empty fd)
    · intro fd _
      rfl
  · rintro t s ⟨action, ms⟩ s' h hstep
    exact h.next hsize hstep

theorem independent (hsize : ∀ fd, ∀ body ∈ frames fd, body.length < 2 ^ 31) :
    Independent frames := by
  intro start hopened hwatched trace s hrun
  have h := run_inOrder hsize hopened hwatched hrun
  refine ⟨?_, ?_, ?_⟩
  · intro fd
    by_cases hfd : fd ∈ s.opened
    · exact (h.pending fd hfd).eq_append
    · rw [h.silent fd hfd]
      exact List.nil_prefix
  · intro fd hfd
    exact (h.pending fd hfd).stream_eq_nil_iff.mp
  · intro events logins hnodup hready
    refine recvFromAll_ready (P := fun fd body => (frames fd)[(delivered fd trace).length]? = some body)
      hnodup fun event hevent => ?_
    obtain ⟨hthere, hevent, hstream⟩ := hready event hevent
    exact ⟨hthere, (h.pending _ (h.watched hevent)).ready (hsize _) hstream⟩

end Server

/-- What goes out is the message, however many bytes each call takes. -/
def Sends (message : Bytes) : Prop :=
  ∀ (wire : Bytes) (room : Nat → Nat), (send message (Outlet.steady wire room)).2.wire = wire ++ message

theorem window_length_le (bs : Bytes) (pos n : Nat) : (window bs pos n).length ≤ n := by
  rw [window, List.length_take]
  exact Nat.min_le_left _ _

/-- The loop never writes more than it counts. -/
theorem sendLoop_length_le (message : Bytes) {size : Int} (hsize : size < 2 ^ 31) (turns : Nat) :
    ∀ (sent : Nat) (wire : Bytes) (room : Nat → Nat),
      ((sendLoop message size turns sent (Outlet.steady wire room)).2.wire.length : Int) ≤
        wire.length + max 0 (size - sent) := by
  induction turns with
  | zero =>
    intro sent wire room
    change (wire.length : Int) ≤ _
    omega
  | succ turns ih =>
    intro sent wire room
    rw [sendLoop]
    split
    case isFalse =>
      change (wire.length : Int) ≤ _
      omega
    case isTrue hlt =>
      have hleft : size - sent = ((size - sent).toNat : Nat) := by omega
      have hwindow := window_length_le message sent (size - sent).toNat
      rw [hleft, toSize_natCast (by omega), Outlet.send_steady]
      set bytes := window message sent (size - sent).toNat
      have hportion : portion bytes.length (room 0) ≤ bytes.length := portion_le _ _
      have ih := ih (sent + portion bytes.length (room 0))
        (wire ++ bytes.take (portion bytes.length (room 0))) (fun i => room (i + 1))
      rw [List.length_append, List.length_take_of_le hportion] at ih
      dsimp only
      omega

theorem toInt_lt (n : Nat) : toInt n < 2 ^ 31 := (UInt32.ofNat n).toInt32.toInt_lt

theorem sends_iff {message : Bytes} : Sends message ↔ message.length < 2 ^ 31 := by
  constructor
  · intro h
    have hlt := toInt_lt message.length
    have hle := sendLoop_length_le message hlt (message.length + 1) 0 [] fun _ => 0
    have hwire := h [] fun _ => 0
    rw [List.nil_append, send] at hwire
    rw [hwire] at hle
    change (message.length : Int) ≤ 0 + max 0 (toInt message.length - 0) at hle
    omega
  · intro h wire room
    obtain ⟨room', hsend⟩ := send_steady h wire room
    rw [hsend]
    rfl

/-- How the bytes are cut makes no difference to what comes in, and none to what goes out as long as
it can be counted. -/
theorem framing_iff [Machine] {frames : Int → List Bytes}
    (hsize : ∀ fd, ∀ body ∈ frames fd, body.length < 2 ^ 31) (response : Bytes) :
    Server.Independent frames ∧ Sends response ↔ response.length < 2 ^ 31 := by
  rw [sends_iff]
  exact and_iff_right (Server.independent hsize)

section
attribute [local instance] littleEndian

theorem framing_two :
    Server.Independent (fun _ => [[0x68, 0x69], []]) ∧ Sends [0, 2, 0, 0, 0, 0x6f, 0x6b] :=
  (framing_iff (fun _ => by decide) [0, 2, 0, 0, 0, 0x6f, 0x6b]).mpr (by decide)

/-- Nothing of a response of `2 ^ 31` bytes goes out. -/
theorem framing_not_independent :
    ¬ ∀ frames response, (∀ fd, ∀ body ∈ frames fd, body.length < 2 ^ 31) →
      Server.Independent frames ∧ Sends response := by
  intro hall
  have hlong : (List.replicate (2 ^ 31) (0 : UInt8)).length = 2 ^ 31 := List.length_replicate
  obtain ⟨_, hsends⟩ := hall (fun _ => []) (List.replicate (2 ^ 31) 0) (by simp)
  have hlt := sends_iff.mp hsends
  omega

end

end Ambry
