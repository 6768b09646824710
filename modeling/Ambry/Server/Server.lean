import Mathlib.Data.Finset.Basic
import Mathlib.Logic.Function.Basic
import Ambry.Aci.Types
import Ambry.Foundation.Run
import Ambry.Server.SocketUtil

/-!
# `server/server.cpp`: connections and messages

The descriptor of an accepted connection is never closed by the server, so a
later connection has another one. A server steps when its listener accepts a
connection and when the loop receives what the events of one `epoll_wait` ask
for; an event speaks of a descriptor that is watched, and one call reports a
descriptor once.
-/

namespace Ambry

open Foundation

structure Incoming where
  message : Bytes
  fd : Int
  deriving DecidableEq, Repr

structure EpollEvent where
  fd : Int
  /-- `EPOLLRDHUP` is among its events -/
  rdhup : Bool
  deriving DecidableEq, Repr

abbrev Logins := AList fun _ : Int => Aci.Login

structure Server where
  cons : Finset Int
  /-- the descriptors that are registered with the epoll instance -/
  watched : Finset Int
  /-- the descriptors of accepted connections -/
  opened : Finset Int
  sockets : Int → Inlet

namespace Server

def setSocket (fd : Int) (socket : Inlet) (s : Server) : Server :=
  { s with sockets := Function.update s.sockets fd socket }

/-- What the listener does with a connection; `status` is the result of `epoll_ctl`. -/
def accept (cfd : Int) (socket : Inlet) (status : Int) (s : Server) : Server :=
  let s := { s.setSocket cfd socket with opened := insert cfd s.opened }
  if status = -1 then s
  else { s with cons := insert cfd s.cons, watched := insert cfd s.watched }

/-- `recvall` on the socket of a descriptor. -/
def recvall (fd : Int) (size : Nat) (s : Server) : Option ((Bytes × Int) × Server) := do
  let (r, socket) ← Ambry.recvall (s.sockets fd) size
  return (r, s.setSocket fd socket)

/-- The loop of `recv_from_all` for one event. -/
def recvFrom [Machine] (event : EpollEvent) (logins : Logins) (s : Server) :
    Option ((Option Incoming × Logins) × Server) :=
  let fd := event.fd
  if event.rdhup then
    some ((none, logins.erase fd), { s with cons := s.cons.erase fd, watched := s.watched.erase fd })
  else do
    let ((m, n), s) ← s.recvall fd 4
    if n ≤ 0 then return ((none, logins), s)
    else
      let len : UInt32 := ofImage Machine.order (m.take 4)
      let ((data, _), s) ← s.recvall fd len.toNat
      return ((some ⟨data, fd⟩, logins), s)

/-- `recv_from_all`, with the events that `epoll_wait` has reported. -/
def recvFromAll [Machine] : List EpollEvent → Logins → Server →
    Option ((List Incoming × Logins) × Server)
  | [], logins, s => some (([], logins), s)
  | event :: events, logins, s => do
    let ((message, logins), s) ← s.recvFrom event logins
    let ((messages, logins), s) ← recvFromAll events logins s
    return ((message.toList ++ messages, logins), s)

inductive Action
  | accept (cfd : Int) (socket : Inlet) (status : Int)
  | recvFromAll (events : List EpollEvent) (logins : Logins)

def next [Machine] (s : Server) : Action → Option (List Incoming × Server)
  | .accept cfd socket status => some ([], s.accept cfd socket status)
  | .recvFromAll events logins => (s.recvFromAll events logins).map fun r => (r.1.1, r.2)

def Allowed (s : Server) : Action → Prop
  | .accept cfd _ _ => cfd ∉ s.opened
  | .recvFromAll events _ =>
    (events.map EpollEvent.fd).Nodup ∧ ∀ event ∈ events, event.fd ∈ s.watched

/-- The messages that came in on one connection. -/
def messagesFrom (fd : Int) (messages : List Incoming) : List Bytes :=
  (messages.filter fun m => m.fd = fd).map Incoming.message

def delivered (fd : Int) (trace : List (Action × List Incoming)) : List Bytes :=
  trace.flatMap fun e => messagesFrom fd e.2

end Server

/-- `(uint8_t)result.type`. -/
def typeByte : ResultType → UInt8
  | .Ok => 0
  | .IoFailure => 1
  | .MalformedIdx => 2
  | .MalformedDat => 3
  | .KeyNotInserted => 4
  | .EraseFailure => 5
  | .KeyNotFound => 6
  | .ParseError => 7
  | .InterpretError => 8

/-- One byte for the status code, four bytes for the length of the message, then the message. -/
def constructResponce [Machine] (result : Aci.Result) : Bytes :=
  typeByte result.type ::
    (image Machine.order (UInt32.ofNat result.message.length) ++ result.message)

def sendResult [Machine] (fd : Outlet) (result : Aci.Result) : Outlet :=
  (send (constructResponce result) fd).2

/-- What `command_loop` sends on one connection. -/
def sendResults [Machine] (results : List Aci.Result) (fd : Outlet) : Outlet :=
  results.foldl sendResult fd

end Ambry
