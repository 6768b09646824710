import Ambry.Foundation.Scalar

/-!
# Byte streams

The two ends of a connection that neither loses nor reorders bytes. How many
bytes one call moves is up to the connection: at least one and at most as many as
it is asked for. A connection is steady when no call fails.
-/

namespace Foundation

/-- The bytes that are still to come in, and how many of them each later call finds. -/
structure Inlet where
  stream : Bytes
  arrived : Nat → Option Nat

/-- The bytes that have gone out, and how many each later call has room for. -/
structure Outlet where
  wire : Bytes
  accepted : Nat → Option Nat

/-- How many bytes a call moves that asks for `n` where there are `found`. -/
def portion (n found : Nat) : Nat := min n (max 1 found)

theorem portion_le (n found : Nat) : portion n found ≤ n := Nat.min_le_left _ _

theorem portion_pos {n : Nat} (h : 0 < n) (found : Nat) : 0 < portion n found := by
  rw [portion]
  omega

theorem portion_eq_iff {n found : Nat} : portion n found = n ↔ n ≤ max 1 found := by
  rw [portion]
  omega

namespace Inlet

/-- A call for at most `n` bytes; it does not return while there are none. -/
def recv (n : Nat) (s : Inlet) : Option (Option Bytes × Inlet) :=
  let arrived := fun i => s.arrived (i + 1)
  match s.arrived 0 with
  | none => some (none, { s with arrived })
  | some found =>
    if n ≠ 0 ∧ s.stream = [] then none
    else
      let size := portion n found
      some (some (s.stream.take size), { stream := s.stream.drop size, arrived })

/-- The same where the peer has closed the connection: a call behind the last byte returns at once,
with no bytes. -/
def recvClosed (n : Nat) (s : Inlet) : Option Bytes × Inlet :=
  let arrived := fun i => s.arrived (i + 1)
  match s.arrived 0 with
  | none => (none, { s with arrived })
  | some found =>
    let size := portion n found
    (some (s.stream.take size), { stream := s.stream.drop size, arrived })

def steady (stream : Bytes) (cuts : Nat → Nat) : Inlet := ⟨stream, fun i => some (cuts i)⟩

variable {stream rest : Bytes} {cuts : Nat → Nat} {n : Nat}

theorem recv_steady (h : n = 0 ∨ stream ≠ []) :
    (steady stream cuts).recv n = some (some (stream.take (portion n (cuts 0))),
      steady (stream.drop (portion n (cuts 0))) fun i => cuts (i + 1)) := by
  have hwait : ¬ (n ≠ 0 ∧ stream = []) := by
    rintro ⟨hn, hstream⟩
    exact h.elim hn fun hne => hne hstream
  exact if_neg hwait

theorem recvClosed_steady (stream : Bytes) (cuts : Nat → Nat) (n : Nat) :
    (steady stream cuts).recvClosed n = (some (stream.take (portion n (cuts 0))),
      steady (stream.drop (portion n (cuts 0))) fun i => cuts (i + 1)) := rfl

/-- As long as a call does not have to wait, it does not matter whether the peer is still there. -/
theorem recvClosed_of_recv {s s' : Inlet} {result : Option Bytes} (h : s.recv n = some (result, s')) :
    s.recvClosed n = (result, s') := by
  obtain ⟨stream, arrived⟩ := s
  rw [recv] at h
  rw [recvClosed]
  dsimp only at h ⊢
  cases harrived : arrived 0 with
  | none =>
    rw [harrived] at h
    cases h
    rfl
  | some found =>
    rw [harrived] at h
    dsimp only at h
    split at h
    · cases h
    · cases h
      rfl

theorem recv_steady_nil (h : n ≠ 0) : (steady [] cuts).recv n = none := if_pos ⟨h, rfl⟩

/-- A call that finds all it asks for. -/
theorem recv_steady_whole {bs : Bytes} (h : bs.length ≤ max 1 (cuts 0)) :
    (steady (bs ++ rest) cuts).recv bs.length =
      some (some bs, steady rest fun i => cuts (i + 1)) := by
  have hnil : bs.length = 0 ∨ bs ++ rest ≠ [] := by
    cases bs
    · exact .inl rfl
    · exact .inr (List.cons_ne_nil _ _)
  rw [recv_steady hnil, portion_eq_iff.mpr h, List.take_left, List.drop_left]

end Inlet

namespace Outlet

def send (bytes : Bytes) (s : Outlet) : Option Nat × Outlet :=
  let accepted := fun i => s.accepted (i + 1)
  match s.accepted 0 with
  | none => (none, { s with accepted })
  | some room =>
    let size := portion bytes.length room
    (some size, { wire := s.wire ++ bytes.take size, accepted })

def steady (wire : Bytes) (room : Nat → Nat) : Outlet := ⟨wire, fun i => some (room i)⟩

theorem send_steady (bytes wire : Bytes) (room : Nat → Nat) :
    (steady wire room).send bytes = (some (portion bytes.length (room 0)),
      steady (wire ++ bytes.take (portion bytes.length (room 0))) fun i => room (i + 1)) := rfl

end Outlet

end Foundation
