import Ambry.Lib.Types
import Ambry.Foundation.Splice
import Ambry.Foundation.Stream

/-!
# `server/socket_util.cpp`

A loop over a blocking socket moves at least one byte at every turn, so the
number of bytes bounds the turns. A loop that would store past its buffer, or
count past the range of `int`, has no result.
-/

namespace Ambry

open Foundation

/-- The value of an `int` that takes a `size_t`. -/
def toInt (n : Nat) : Int := (UInt32.ofNat n).toInt32.toInt

/-- The value of a `size_t` that takes an `int`. -/
def toSize (i : Int) : Nat := (i % 2 ^ 64).toNat

theorem toInt_eq {n : Nat} (h : n < 2 ^ 32) :
    toInt n = if 2 * n < 2 ^ 32 then (n : Int) else (n : Int) - 2 ^ 32 := by
  have hnat : (UInt32.ofNat n).toBitVec.toNat = n := UInt32.toNat_ofNat_of_lt' h
  change (UInt32.ofNat n).toBitVec.toInt = _
  rw [BitVec.toInt_eq_toNat_cond, hnat]
  rfl

theorem toInt_of_lt {n : Nat} (h : n < 2 ^ 31) : toInt n = n := by
  rw [toInt_eq (by omega), if_pos (by omega)]

theorem toSize_natCast {n : Nat} (h : n < 2 ^ 64) : toSize n = n := by
  rw [toSize, Int.emod_eq_of_lt (by omega) (by omega), Int.toNat_natCast]

/-- `buff` is the part of the buffer that has been filled, so `got` is its length. -/
def recvallLoop (size : Nat) : (turns : Nat) → (buff : Bytes) → (left : Int) → Inlet →
    Option ((Bytes × Int) × Inlet)
  | 0, _, _, _ => none
  | turns + 1, buff, left, fd =>
    if buff.length < size then do
      let (n, fd) ← fd.recv (toSize left)
      match n with
      | none => some (([], -1), fd)
      | some bytes =>
        let got := buff.length + bytes.length
        if got ≤ size ∧ got < 2 ^ 31 ∧ -2 ^ 31 ≤ left - bytes.length then
          recvallLoop size turns (buff ++ bytes) (left - bytes.length) fd
        else none
    else some ((buff, buff.length), fd)

def recvall (fd : Inlet) (size : Nat) : Option ((Bytes × Int) × Inlet) :=
  recvallLoop size (size + 1) [] (toInt size) fd

def sendLoop (message : Bytes) (size : Int) : (turns : Nat) → (sent : Nat) → Outlet → Int × Outlet
  | 0, sent, fd => (sent, fd)
  | turns + 1, sent, fd =>
    if sent < size then
      match fd.send (window message sent (toSize (size - sent))) with
      | (none, fd) => (sent, fd)
      | (some n, fd) => sendLoop message size turns (sent + n) fd
    else (sent, fd)

def send (message : Bytes) (fd : Outlet) : Int × Outlet :=
  sendLoop message (toInt message.length) (message.length + 1) 0 fd

/-- The loop takes the bytes that are missing, however they come in. -/
theorem recvallLoop_steady {size : Nat} (hsize : size < 2 ^ 31) {rest : Bytes} {turns : Nat} :
    ∀ {buff bs : Bytes} {cuts : Nat → Nat}, buff.length + bs.length = size → bs.length < turns →
      ∃ cuts', recvallLoop size turns buff bs.length (Inlet.steady (bs ++ rest) cuts) =
        some ((buff ++ bs, (size : Int)), Inlet.steady rest cuts') := by
  induction turns with
  | zero =>
    intro buff bs cuts _ h
    exact absurd h (Nat.not_lt_zero _)
  | succ turns ih =>
    intro buff bs cuts hlen hturns
    rw [recvallLoop]
    rcases Nat.eq_zero_or_pos bs.length with hzero | hpos
    · obtain rfl := List.eq_nil_of_length_eq_zero hzero
      rw [if_neg (by omega)]
      refine ⟨cuts, ?_⟩
      simp only [List.append_nil, List.nil_append, ← hlen, List.length_nil, Nat.add_zero]
    · have hne : bs ++ rest ≠ [] := by
        apply List.append_ne_nil_of_left_ne_nil
        exact List.ne_nil_of_length_pos hpos
      rw [if_pos (by omega), toSize_natCast (by omega), Inlet.recv_steady (.inr hne)]
      set n := portion bs.length (cuts 0)
      have hle : n ≤ bs.length := portion_le _ _
      have hn : 0 < n := portion_pos hpos _
      have htake : (bs ++ rest).take n = bs.take n := List.take_append_of_le_length hle
      have hdrop : (bs ++ rest).drop n = bs.drop n ++ rest := List.drop_append_of_le_length hle
      have hgot : (bs.take n).length = n := List.length_take_of_le hle
      have hleft : ((bs.length : Int) - n) = (bs.drop n).length := by
        rw [List.length_drop]
        omega
      obtain ⟨cuts', ih⟩ := @ih (buff ++ bs.take n) (bs.drop n) (fun i => cuts (i + 1))
        (by simp only [List.length_append, List.length_take, List.length_drop]; omega)
        (by rw [List.length_drop]; omega)
      refine ⟨cuts', ?_⟩
      simp only [Option.bind_eq_bind, Option.bind_some, htake, hdrop, hgot, hleft, ih]
      rw [if_pos (by omega), List.append_assoc, List.take_append_drop]

theorem recvall_steady {bs rest : Bytes} (h : bs.length < 2 ^ 31) (cuts : Nat → Nat) :
    ∃ cuts', recvall (Inlet.steady (bs ++ rest) cuts) bs.length =
      some ((bs, (bs.length : Int)), Inlet.steady rest cuts') := by
  rw [recvall, toInt_of_lt h]
  exact @recvallLoop_steady bs.length h rest _ [] bs cuts (by simp) (Nat.lt_succ_self _)

theorem sendLoop_steady {message : Bytes} (hsize : message.length < 2 ^ 31) {turns : Nat} :
    ∀ {sent : Nat} {wire : Bytes} {room : Nat → Nat}, sent ≤ message.length →
      message.length < sent + turns →
      ∃ room', sendLoop message message.length turns sent (Outlet.steady wire room) =
        ((message.length : Int), Outlet.steady (wire ++ message.drop sent) room') := by
  induction turns with
  | zero =>
    intro sent wire room hle h
    exact absurd h (by omega)
  | succ turns ih =>
    intro sent wire room hle hturns
    rw [sendLoop]
    rcases hle.eq_or_lt with rfl | hlt
    · rw [if_neg (by omega), List.drop_length, List.append_nil]
      exact ⟨room, rfl⟩
    · have hsub : (message.length : Int) - sent = (message.length - sent : Nat) := by omega
      have hwindow : window message sent (message.length - sent) = message.drop sent := by
        rw [window, ← List.length_drop, List.take_length]
      rw [if_pos (by omega), hsub, toSize_natCast (by omega), hwindow, Outlet.send_steady]
      set n := portion (message.drop sent).length (room 0)
      have hn : n ≤ (message.drop sent).length := portion_le _ _
      have hpos : 0 < n := portion_pos (by rw [List.length_drop]; omega) _
      rw [List.length_drop] at hn
      obtain ⟨room', ih⟩ := @ih (sent + n) (wire ++ (message.drop sent).take n)
        (fun i => room (i + 1)) (by omega) (by omega)
      refine ⟨room', ?_⟩
      simp only [ih]
      rw [List.append_assoc, ← List.drop_drop, List.take_append_drop]

theorem send_steady {message : Bytes} (h : message.length < 2 ^ 31) (wire : Bytes)
    (room : Nat → Nat) :
    ∃ room', send message (Outlet.steady wire room) =
      ((message.length : Int), Outlet.steady (wire ++ message) room') := by
  rw [send, toInt_of_lt h]
  exact sendLoop_steady h (Nat.zero_le _) (by omega)

/-- The number of bytes is negative as an `int`. -/
theorem send_of_le {message : Bytes} (h : 2 ^ 31 ≤ message.length) (hlt : message.length < 2 ^ 32)
    (fd : Outlet) : send message fd = (0, fd) := by
  have hneg : ¬ (((0 : Nat) : Int) < toInt message.length) := by
    rw [toInt_eq hlt, if_neg (by omega)]
    omega
  rw [send, sendLoop, if_neg hneg]
  rfl

end Ambry
