import Ambry.Server.CommandLoop
import Ambry.Server.Requests

/-!
# A connection from end to end

What a client sends is cut into messages, parsed, executed among the commands of
all the others, and answered; what the client reads are the answers to its own
commands.
-/

namespace Ambry.Service

open Foundation Aci Interpreter

section
variable {σ δ ω : Type} [Machine] [Store σ] [Database δ ω] {start s : Service σ δ ω} {fd : Int}
  {trace : List (Action × Reply)} {messages : List Text} {stream : Bytes} {cuts room : Nat → Nat}

omit [Store σ] [Database δ ω] in
theorem stream_eq_nil_iff (h : prepareAll messages = some stream) :
    stream = [] ↔ messages = [] := by
  cases messages with
  | nil =>
    cases h
    simp
  | cons message messages =>
    obtain ⟨frames, _, rfl⟩ := prepareAll_cons h
    have hlen : (image Machine.order (UInt32.ofNat message.length)).length = 4 := image_length _ _
    have hne : image Machine.order (UInt32.ofNat message.length) ≠ [] := by
      apply List.ne_nil_of_length_pos
      omega
    simp [hne]

/-- The client reads what was sent, if it comes in as it asks for it. -/
theorem read_outlet {results : List Aci.Result} (hsendable : ∀ r ∈ results, Sendable r)
    (hwhole : Whole results cuts) : ∃ cuts',
      getMessages results.length (Inlet.steady
        (sendResults results (Outlet.steady [] room)).wire cuts) =
        some (results.map reply, Inlet.steady [] cuts') := by
  have hlen : ∀ r ∈ results, r.message.length < 2 ^ 32 := by
    intro r hr
    have hsend := hsendable r hr
    rw [Sendable] at hsend
    omega
  obtain ⟨room', hsent⟩ := sendResults_sendable hsendable [] room
  rw [hsent]
  exact getMessages_whole hlen hwhole

/-- Whatever the other connections send, and however the events come: the commands of a connection
are those of the first messages of its client, of all of them when nothing is left to come, and the
client reads their results, each once and in their order. -/
theorem answered (hascii : ∀ message ∈ messages, ∀ c ∈ message, c.val < 128)
    (hsize : ∀ message ∈ messages, (encode message).length < 2 ^ 31)
    (hprepare : prepareAll messages = some stream) (hopen : fd ∈ start.server.opened)
    (hsocket : start.server.sockets fd = Inlet.steady stream cuts)
    (houtlet : start.outlets fd = Outlet.steady [] room)
    (hrun : Run (Steps next Allowed) start trace s) :
    (∃ sent rest, messages = sent ++ rest ∧
      commandsOn fd (trace.flatMap seen) = commandsOf (sent.map encode) ∧
      ((s.server.sockets fd).stream = [] ↔ rest = [])) ∧
    ((∀ r ∈ resultsOn fd (trace.flatMap seen), Sendable r) →
      ∀ arriving, Whole (resultsOn fd (trace.flatMap seen)) arriving → ∃ later,
        getMessages (commandsOn fd (trace.flatMap seen)).length
            (Inlet.steady (s.outlets fd).wire arriving) =
          some ((resultsOn fd (trace.flatMap seen)).map reply, Inlet.steady [] later)) := by
  obtain ⟨requests, hrequests, hdelivered⟩ := run_server hrun
  have hstart : Server.InStep messages fd [] start.server :=
    ⟨[], messages, stream, cuts, rfl, rfl, hprepare, hsocket⟩
  obtain ⟨sent, rest, stream', cuts', hmessages, hgot, hprepare', hsocket'⟩ :=
    Server.run_inStep hascii hsize hopen hstart hrequests
  constructor
  · refine ⟨sent, rest, hmessages, ?_, ?_⟩
    · rw [run_commands hrun, ← hdelivered, hgot]
    · rw [hsocket']
      exact stream_eq_nil_iff hprepare'
  · intro hsendable arriving hwhole
    have hlength : (commandsOn fd (trace.flatMap seen)).length =
        (resultsOn fd (trace.flatMap seen)).length := by
      rw [commandsOn, resultsOn, List.length_map, List.length_map]
    rw [hlength, run_outlets hrun, houtlet]
    exact read_outlet hsendable hwhole

end

section
attribute [local instance] littleEndian

instance wholeDecidable : (results : List Aci.Result) → (cuts : Nat → Nat) →
    Decidable (Whole results cuts)
  | [], _ => .isTrue trivial
  | r :: results, cuts =>
    have := wholeDecidable results fun i => cuts (i + 2)
    inferInstanceAs (Decidable (5 ≤ max 1 (cuts 0) ∧ r.message.length ≤ max 1 (cuts 1) ∧
      Whole results fun i => cuts (i + 2)))

def requests : List Text := ["login root pw".toList, "show_users".toList, "show_users".toList]

/-- A server with one connection, on which three requests are to come. -/
def awaiting : Service Table Volume Disk :=
  let stream := (prepareAll requests).getD []
  { started with server := ⟨{5}, {5}, {5}, fun _ => Inlet.steady stream fun _ => 4096⟩ }

/-- Two of them have been answered. -/
theorem answered_two : ∃ trace s, Run (Steps next Allowed) awaiting trace s ∧
    (resultsOn 5 (trace.flatMap seen)).length = 2 ∧ ∃ later,
      getMessages (commandsOn 5 (trace.flatMap seen)).length
          (Inlet.steady (s.outlets 5).wire fun _ => 4096) =
        some ((resultsOn 5 (trace.flatMap seen)).map reply, Inlet.steady [] later) := by
  have hrun : ∃ out ∈ runAll next awaiting [.turn [⟨5, false⟩], .turn [⟨5, false⟩]],
      (resultsOn 5 (out.1.flatMap seen)).length = 2 ∧
      (∀ r ∈ resultsOn 5 (out.1.flatMap seen), Sendable r) ∧
      Whole (resultsOn 5 (out.1.flatMap seen)) fun _ => 4096 := by
    decide +kernel
  obtain ⟨⟨trace, s⟩, hout, hlength, hsendable, hwhole⟩ := hrun
  have hrun : Run (Steps next Allowed) awaiting trace s := run_of_runAll (by decide +kernel) hout
  have hsize : ∀ message ∈ requests, (encode message).length < 2 ^ 31 := by decide +kernel
  have hprepare : prepareAll requests = some ((prepareAll requests).getD []) := by
    obtain ⟨stream, hstream⟩ := prepareAll_of_lt hsize
    rw [hstream]
    rfl
  have hascii : ∀ message ∈ requests, ∀ c ∈ message, c.val < 128 := by simp [requests]
  have hopen : (5 : Int) ∈ awaiting.server.opened := by decide
  have hanswered := answered hascii hsize hprepare hopen rfl rfl hrun
  have hread := hanswered.2 hsendable (fun _ => 4096) hwhole
  exact ⟨trace, s, hrun, hlength, hread⟩

end

end Ambry.Service
