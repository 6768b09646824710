import Ambry.Lib.Types
import Ambry.Foundation.Stream

/-!
# `server/client.py`

A text is the list of its characters. What raises an exception has no result.
-/

namespace Ambry

open Foundation

abbrev Text := List Char

/-- `message.encode()`. -/
def encode (message : Text) : Bytes := message.flatMap String.utf8EncodeChar

section
variable [Machine]

/-- `len(message).to_bytes(4, byteorder) + message.encode()`. -/
def prepareMessage (message : Text) : Option Bytes :=
  if message.length < 2 ^ 32 then
    some (image Machine.order (UInt32.ofNat message.length) ++ encode message)
  else none

/-- What the connection is given to carry when each message is prepared and sent. -/
def prepareAll : List Text → Option Bytes
  | [] => some []
  | message :: messages => do
    let frame ← prepareMessage message
    let frames ← prepareAll messages
    return frame ++ frames

/-- `int.from_bytes(bs, byteorder)`. -/
def fromBytes (bs : Bytes) : Nat := leValue (ByteOrder.arrange Machine.order bs)

def clientRecv (n : Nat) (s : Inlet) : Option (Bytes × Inlet) := do
  let (data, s) ← s.recv n
  return (← data, s)

def getMessage (s : Inlet) : Option ((UInt8 × Bytes) × Inlet) := do
  let (data, s) ← clientRecv 5 s
  let statusCode ← data.head?
  let resLen := fromBytes ((data.drop 1).take 4)
  let (data, s) ← clientRecv resLen s
  return ((statusCode, data), s)

def getMessages : (calls : Nat) → Inlet → Option (List (UInt8 × Bytes) × Inlet)
  | 0, s => some ([], s)
  | calls + 1, s => do
    let (message, s) ← getMessage s
    let (messages, s) ← getMessages calls s
    return (message :: messages, s)

end

theorem fromBytes_image [Machine] {n : Nat} (h : n < 2 ^ 32) :
    fromBytes (image Machine.order (UInt32.ofNat n)) = n := by
  have hlt : (UInt32.ofNat n).toNat < 256 ^ 4 := (UInt32.ofNat n).toNat_lt
  rw [fromBytes, image, ByteOrder.arrange_arrange, leValue_leBytes]
  exact (Nat.mod_eq_of_lt hlt).trans (UInt32.toNat_ofNat_of_lt' h)

theorem length_encode_cons (c : Char) (message : Text) :
    (encode (c :: message)).length = c.utf8Size + (encode message).length := by
  simp [encode]

theorem length_le_encode (message : Text) : message.length ≤ (encode message).length := by
  induction message with
  | nil => exact Nat.le_refl _
  | cons c message ih =>
    have hpos := c.utf8Size_pos
    rw [length_encode_cons, List.length_cons]
    omega

/-- A character of one byte is a character of ASCII. -/
theorem length_encode_eq_iff {message : Text} :
    (encode message).length = message.length ↔ ∀ c ∈ message, c.val < 128 := by
  induction message with
  | nil => simp [encode]
  | cons c message ih =>
    have hpos := c.utf8Size_pos
    have hle := length_le_encode message
    have hc : c.utf8Size = 1 ↔ c.val < 128 := by
      rw [Char.utf8Size_eq_one_iff, UInt32.le_iff_toNat_le, UInt32.lt_iff_toNat_lt]
      exact Nat.lt_succ_iff.symm
    rw [length_encode_cons, List.length_cons, List.forall_mem_cons, ← ih, ← hc]
    omega

theorem prepareMessage_of_lt [Machine] {message : Text} (h : (encode message).length < 2 ^ 31) :
    prepareMessage message =
      some (image Machine.order (UInt32.ofNat message.length) ++ encode message) := by
  have hle := length_le_encode message
  exact if_pos (by omega)

theorem prepareAll_cons [Machine] {message : Text} {messages : List Text} {stream : Bytes}
    (h : prepareAll (message :: messages) = some stream) :
    ∃ frames, prepareAll messages = some frames ∧
      stream = image Machine.order (UInt32.ofNat message.length) ++ encode message ++ frames := by
  obtain ⟨frame, hframe, h⟩ := Option.bind_eq_some_iff.mp h
  obtain ⟨frames, hframes, h⟩ := Option.bind_eq_some_iff.mp h
  cases h
  rw [prepareMessage] at hframe
  split at hframe
  · cases hframe
    exact ⟨frames, hframes, rfl⟩
  · cases hframe

theorem prepareAll_of_lt [Machine] {messages : List Text}
    (h : ∀ message ∈ messages, (encode message).length < 2 ^ 31) :
    ∃ stream, prepareAll messages = some stream := by
  induction messages with
  | nil => exact ⟨[], rfl⟩
  | cons message messages ih =>
    obtain ⟨hmessage, hmessages⟩ := List.forall_mem_cons.mp h
    obtain ⟨frames, hframes⟩ := ih hmessages
    simp [prepareAll, prepareMessage_of_lt hmessage, hframes]

end Ambry
