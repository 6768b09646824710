import Ambry.Server.Client
import Ambry.Server.Server

/-!
# Responses

The client asks once for a header and once for a message, and takes what it gets
for the whole. Every byte that a call leaves behind is still there in the end, so
the bytes that are sent are used up exactly when no call was cut short.
-/

namespace Ambry

open Foundation

/-- Each header and each message are there as a whole when the client asks for them. -/
def Whole : List Aci.Result → (cuts : Nat → Nat) → Prop
  | [], _ => True
  | r :: results, cuts => 5 ≤ max 1 (cuts 0) ∧ r.message.length ≤ max 1 (cuts 1) ∧
      Whole results fun i => cuts (i + 2)

/-- The bytes of a response can be counted in an `int`. -/
def Sendable (r : Aci.Result) : Prop := 5 + r.message.length < 2 ^ 31

instance (r : Aci.Result) : Decidable (Sendable r) := inferInstanceAs (Decidable (_ < _))

def reply (r : Aci.Result) : UInt8 × Bytes := (typeByte r.type, r.message)

section
variable [Machine] {r : Aci.Result} {results : List Aci.Result} {cuts : Nat → Nat}
  {stream rest : Bytes}

@[simp] theorem constructResponce_length (r : Aci.Result) :
    (constructResponce r).length = 5 + r.message.length := by
  have hwidth : Scalar.width UInt32 = 4 := rfl
  rw [constructResponce, List.length_cons, List.length_append, image_length, hwidth]
  omega

theorem sendResult_sendable (h : Sendable r) (wire : Bytes) (room : Nat → Nat) :
    ∃ room', sendResult (Outlet.steady wire room) r =
      Outlet.steady (wire ++ constructResponce r) room' := by
  have hlen : (constructResponce r).length < 2 ^ 31 := by
    rw [constructResponce_length]
    exact h
  obtain ⟨room', hsend⟩ := send_steady hlen wire room
  exact ⟨room', congrArg Prod.snd hsend⟩

theorem sendResults_sendable (h : ∀ r ∈ results, Sendable r) :
    ∀ (wire : Bytes) (room : Nat → Nat), ∃ room', sendResults results (Outlet.steady wire room) =
      Outlet.steady (wire ++ results.flatMap constructResponce) room' := by
  induction results with
  | nil =>
    intro wire room
    refine ⟨room, ?_⟩
    rw [List.flatMap_nil, List.append_nil]
    rfl
  | cons r results ih =>
    intro wire room
    obtain ⟨hr, hresults⟩ := List.forall_mem_cons.mp h
    obtain ⟨room₁, hsend⟩ := sendResult_sendable hr wire room
    obtain ⟨room₂, hothers⟩ := ih hresults (wire ++ constructResponce r) room₁
    refine ⟨room₂, ?_⟩
    rw [sendResults, List.foldl_cons, hsend, ← sendResults, hothers, List.flatMap_cons,
      List.append_assoc]

theorem sendResults_concat (results : List Aci.Result) (r : Aci.Result) (fd : Outlet) :
    sendResults (results ++ [r]) fd = sendResult (sendResults results fd) r := by
  simp only [sendResults, List.foldl_append, List.foldl_cons, List.foldl_nil]

omit [Machine] in
theorem clientRecv_whole {bs : Bytes} (h : bs.length ≤ max 1 (cuts 0)) :
    clientRecv bs.length (Inlet.steady (bs ++ rest) cuts) =
      some (bs, Inlet.steady rest fun i => cuts (i + 1)) := by
  rw [clientRecv, Inlet.recv_steady_whole h]
  rfl

/-- A response that comes in as two wholes. -/
theorem getMessage_whole (hlen : r.message.length < 2 ^ 32) (hheader : 5 ≤ max 1 (cuts 0))
    (hmessage : r.message.length ≤ max 1 (cuts 1)) :
    getMessage (Inlet.steady (constructResponce r ++ rest) cuts) =
      some (reply r, Inlet.steady rest fun i => cuts (i + 2)) := by
  set size := image Machine.order (UInt32.ofNat r.message.length)
  set header := typeByte r.type :: size
  have hsize : size.length = 4 := image_length _ _
  have hfive : header.length = 5 := congrArg (· + 1) hsize
  have hcount : fromBytes ((header.drop 1).take 4) = r.message.length := by
    rw [List.drop_one, List.tail_cons, ← hsize, List.take_length]
    exact fromBytes_image hlen
  have hfirst : clientRecv 5 (Inlet.steady (header ++ (r.message ++ rest)) cuts) =
      some (header, Inlet.steady (r.message ++ rest) fun i => cuts (i + 1)) := by
    rw [← hfive]
    exact clientRecv_whole (hfive ▸ hheader)
  have hsecond : clientRecv r.message.length
      (Inlet.steady (r.message ++ rest) fun i => cuts (i + 1)) =
      some (r.message, Inlet.steady rest fun i => cuts (i + 2)) := clientRecv_whole hmessage
  have hstream : constructResponce r ++ rest = header ++ (r.message ++ rest) := by
    simp only [constructResponce, List.cons_append, List.append_assoc, header, size]
  rw [getMessage, hstream, hfirst]
  simp only [Option.bind_eq_bind, Option.bind_some, hcount, hsecond]
  rfl

theorem getMessages_whole (hlen : ∀ r ∈ results, r.message.length < 2 ^ 32) :
    ∀ {cuts : Nat → Nat}, Whole results cuts → ∃ cuts',
      getMessages results.length (Inlet.steady (results.flatMap constructResponce) cuts) =
        some (results.map reply, Inlet.steady [] cuts') := by
  induction results with
  | nil =>
    intro cuts _
    exact ⟨cuts, rfl⟩
  | cons r results ih =>
    rintro cuts ⟨hheader, hmessage, hwhole⟩
    obtain ⟨hr, hresults⟩ := List.forall_mem_cons.mp hlen
    obtain ⟨cuts', hothers⟩ := ih hresults hwhole
    refine ⟨cuts', ?_⟩
    rw [List.flatMap_cons, List.length_cons, getMessages, getMessage_whole hr hheader hmessage]
    simp only [Option.bind_eq_bind, Option.bind_some, hothers]
    rfl

omit [Machine] in
/-- A call takes what there is, and leaves the rest. -/
theorem clientRecv_took {n : Nat} {data : Bytes} {s : Inlet}
    (h : clientRecv n (Inlet.steady stream cuts) = some (data, s)) :
    data.length ≤ n ∧ data.length ≤ max 1 (cuts 0) ∧ stream.length = data.length + s.stream.length ∧
      s = Inlet.steady s.stream fun i => cuts (i + 1) := by
  obtain ⟨⟨data', s'⟩, hrecv, h⟩ := Option.bind_eq_some_iff.mp h
  rcases Decidable.em (n = 0 ∨ stream ≠ []) with hready | hwait
  · rw [Inlet.recv_steady hready] at hrecv
    cases hrecv
    cases h
    have hportion : portion n (cuts 0) ≤ max 1 (cuts 0) := Nat.min_le_right _ _
    have hle := portion_le n (cuts 0)
    refine ⟨?_, ?_, ?_, rfl⟩
    · rw [List.length_take]
      omega
    · rw [List.length_take]
      omega
    · simp only [Inlet.steady, List.length_take, List.length_drop]
      omega
  · obtain ⟨hn, hnil⟩ := not_or.mp hwait
    rw [not_not.mp hnil, Inlet.recv_steady_nil hn] at hrecv
    cases hrecv

theorem getMessage_took {message : UInt8 × Bytes} {s : Inlet}
    (h : getMessage (Inlet.steady stream cuts) = some (message, s)) :
    ∃ header ≤ 5, header ≤ max 1 (cuts 0) ∧ message.2.length ≤ max 1 (cuts 1) ∧
      stream.length = header + message.2.length + s.stream.length ∧
      s = Inlet.steady s.stream fun i => cuts (i + 2) := by
  obtain ⟨⟨header, s₁⟩, hfirst, h⟩ := Option.bind_eq_some_iff.mp h
  obtain ⟨statusCode, _, h⟩ := Option.bind_eq_some_iff.mp h
  obtain ⟨⟨data, s₂⟩, hsecond, h⟩ := Option.bind_eq_some_iff.mp h
  cases h
  obtain ⟨hfive, hheader, hlen₁, hs₁⟩ := clientRecv_took hfirst
  rw [hs₁] at hsecond
  obtain ⟨_, hmessage, hlen₂, hs₂⟩ := clientRecv_took hsecond
  refine ⟨header.length, hfive, hheader, hmessage, ?_, hs₂⟩
  change stream.length = header.length + data.length + s.stream.length
  omega

def bytesOf (results : List Aci.Result) : Nat :=
  (results.map fun r => 5 + r.message.length).sum

/-- Calls that use up all the bytes of their results have not been cut short. -/
theorem getMessages_took {s : Inlet} :
    ∀ {stream : Bytes} {cuts : Nat → Nat},
      getMessages results.length (Inlet.steady stream cuts) = some (results.map reply, s) →
      stream.length ≤ bytesOf results + s.stream.length ∧
        (stream.length = bytesOf results + s.stream.length → Whole results cuts) := by
  induction results with
  | nil =>
    rintro stream cuts ⟨⟩
    exact ⟨Nat.le_add_left _ _, fun _ => trivial⟩
  | cons r results ih =>
    intro stream cuts h
    obtain ⟨⟨message, s₁⟩, hfirst, h⟩ := Option.bind_eq_some_iff.mp h
    obtain ⟨⟨messages, s₂⟩, hothers, h⟩ := Option.bind_eq_some_iff.mp h
    cases h
    obtain ⟨header, hfive, hheader, hmessage, hlen, hs₁⟩ := getMessage_took hfirst
    rw [hs₁] at hothers
    obtain ⟨hle, hwhole⟩ := ih hothers
    have hbytes : bytesOf (r :: results) = 5 + r.message.length + bytesOf results := rfl
    change stream.length = header + r.message.length + s₁.stream.length at hlen
    constructor
    · omega
    · intro heq
      exact ⟨by omega, hmessage, hwhole (by omega)⟩

/-- As many calls of the client as results were sent return these results, and nothing is left. -/
def Conveyed (results : List Aci.Result) (room cuts : Nat → Nat) : Prop :=
  ∃ cuts', getMessages results.length
      (Inlet.steady (sendResults results (Outlet.steady [] room)).wire cuts) =
    some (results.map reply, Inlet.steady [] cuts')

theorem conveyed_iff_of_sendable (h : ∀ r ∈ results, Sendable r) {room : Nat → Nat} :
    Conveyed results room cuts ↔ Whole results cuts := by
  obtain ⟨room', hsent⟩ := sendResults_sendable h [] room
  have hwire : (sendResults results (Outlet.steady [] room)).wire =
      results.flatMap constructResponce := by
    rw [hsent]
    rfl
  rw [Conveyed, hwire]
  constructor
  · rintro ⟨cuts', hcalls⟩
    apply (getMessages_took hcalls).2
    simp [bytesOf, List.length_flatMap, Inlet.steady]
  · apply getMessages_whole
    intro r hr
    have hsend := h r hr
    unfold Sendable at hsend
    omega

theorem getMessages_blocked {n : Nat} {s s' : Inlet} {messages : List (UInt8 × Bytes)}
    (h : getMessages n s = some (messages, s')) (hblocked : getMessage s' = none) :
    getMessages (n + 1) s = none := by
  induction n generalizing s messages with
  | zero =>
    cases h
    rw [getMessages, hblocked]
    rfl
  | succ n ih =>
    obtain ⟨⟨message, s₁⟩, hfirst, h⟩ := Option.bind_eq_some_iff.mp h
    obtain ⟨⟨messages, s₂⟩, hothers, h⟩ := Option.bind_eq_some_iff.mp h
    cases h
    rw [getMessages, hfirst]
    simp only [Option.bind_eq_bind, Option.bind_some, ih hothers, Option.bind_none]

theorem getMessage_nil : getMessage (Inlet.steady [] cuts) = none := by
  rw [getMessage, clientRecv, Inlet.recv_steady_nil (by decide)]
  rfl

/-- A response that `send` cannot count is not sent, and the client waits for it. -/
theorem not_conveyed_of_unsendable {room : Nat → Nat} (h : Conveyed results room cuts)
    (hlen : r.message.length < 2 ^ 31) (hr : ¬ Sendable r) :
    ¬ Conveyed (results ++ [r]) room cuts := by
  rintro ⟨cuts₂, hcalls⟩
  obtain ⟨cuts₁, hbefore⟩ := h
  have hbytes := constructResponce_length r
  have hnone : sendResults (results ++ [r]) (Outlet.steady [] room) =
      sendResults results (Outlet.steady [] room) := by
    rw [Sendable] at hr
    rw [sendResults_concat, sendResult, send_of_le (by omega) (by omega)]
  rw [hnone, List.length_append, List.length_singleton,
    getMessages_blocked hbefore getMessage_nil] at hcalls
  cases hcalls

/-- However many results have been sent, the client can read them and no more. -/
def Framed (results : List Aci.Result) (room cuts : Nat → Nat) : Prop :=
  ∀ n, Conveyed (results.take n) room cuts

omit [Machine] in
theorem Whole.take (h : Whole results cuts) (n : Nat) : Whole (results.take n) cuts := by
  induction results generalizing cuts n with
  | nil => simpa using h
  | cons r results ih =>
    cases n with
    | zero => trivial
    | succ n =>
      obtain ⟨hheader, hmessage, hwhole⟩ := h
      exact ⟨hheader, hmessage, ih hwhole n⟩

theorem Framed.sendable {room : Nat → Nat} (h : Framed results room cuts)
    (hlen : ∀ r ∈ results, r.message.length < 2 ^ 31) : ∀ r ∈ results, Sendable r := by
  induction results using List.reverseRecOn with
  | nil =>
    intro r hr
    cases hr
  | append_singleton results r ih =>
    have hbefore : Framed results room cuts := by
      intro n
      have hn := h (min n results.length)
      rwa [List.take_append_of_le_length (Nat.min_le_right _ _), ← List.take_eq_take_min] at hn
    have hresults := ih hbefore fun r hr => hlen r (List.mem_append_left _ hr)
    have hlast : Sendable r := by
      by_contra hr
      have hwhole : Conveyed results room cuts := by
        simpa using hbefore results.length
      apply not_conveyed_of_unsendable hwhole (hlen r (by simp)) hr
      have hn := h (results ++ [r]).length
      rwa [List.take_length] at hn
    intro r' hr'
    obtain hr' | hr' := List.mem_append.mp hr'
    · exact hresults r' hr'
    · rw [List.mem_singleton.mp hr']
      exact hlast

/-- The client reads what was sent exactly when every response can be sent, and every header and
every message is there as a whole when it asks for it. -/
theorem getMessage_framed_iff (hlen : ∀ r ∈ results, r.message.length < 2 ^ 31)
    (room cuts : Nat → Nat) :
    (Framed results room cuts ↔ (∀ r ∈ results, Sendable r) ∧ Whole results cuts) ∧
      ((∀ r ∈ results, Sendable r) → (Conveyed results room cuts ↔ Whole results cuts)) := by
  constructor
  · constructor
    · intro h
      have hsendable := h.sendable hlen
      have hall : Conveyed results room cuts := by
        simpa using h results.length
      exact ⟨hsendable, (conveyed_iff_of_sendable hsendable).mp hall⟩
    · rintro ⟨hsendable, hwhole⟩ n
      have htake : ∀ r ∈ results.take n, Sendable r :=
        fun r hr => hsendable r (List.mem_of_mem_take hr)
      exact (conveyed_iff_of_sendable htake).mpr (hwhole.take n)
  · exact fun hsendable => conveyed_iff_of_sendable hsendable

end

section
attribute [local instance] littleEndian

/-- Two responses, for which the client never has to wait inside a frame. -/
theorem getMessage_framed_two :
    Framed [⟨.Ok, [111, 107]⟩, ⟨.KeyNotFound, []⟩] (fun _ => 1) (fun _ => 5) := by
  have hsendable : ∀ r ∈ ([⟨.Ok, [111, 107]⟩, ⟨.KeyNotFound, []⟩] : List Aci.Result), Sendable r := by
    decide
  exact ((getMessage_framed_iff (by decide) _ _).1.mpr
    ⟨hsendable, by decide, by decide, by decide, by decide, trivial⟩)

/-- The first call for the header of a response finds one byte of it. -/
theorem getMessage_not_conveyed :
    ¬ ∀ (results : List Aci.Result) (room cuts : Nat → Nat),
      (∀ r ∈ results, r.message.length < 2 ^ 31) → Conveyed results room cuts := by
  intro hall
  have hsendable : ∀ r ∈ ([⟨.Ok, [111, 107]⟩] : List Aci.Result), Sendable r := by decide
  have hconveyed := hall [⟨.Ok, [111, 107]⟩] (fun _ => 1) (fun _ => 1) (by decide)
  obtain ⟨hheader, _⟩ := (conveyed_iff_of_sendable hsendable).mp hconveyed
  exact absurd hheader (by decide)

end

end Ambry
