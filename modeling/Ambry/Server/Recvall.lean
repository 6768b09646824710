import Ambry.Foundation.Run
import Ambry.Server.SocketUtil

/-!
# The calls of `recvall`

The loop with its variables as the source has them, one call at a time. What a
call asks for is the `int` variable `left` taken as a `size_t`.
-/

namespace Ambry

open Foundation

/-- The variables of the loop; `buff` is the part of the buffer that has been filled. -/
structure Receiving where
  buff : Bytes
  got : Int
  left : Int

namespace Receiving

def start (size : Nat) : Receiving := ⟨[], 0, toInt size⟩

/-- The condition of the loop; `got` is converted for the comparison. -/
def Waits (size : Nat) (r : Receiving) : Prop := toSize r.got < size

instance (size : Nat) (r : Receiving) : Decidable (r.Waits size) :=
  inferInstanceAs (Decidable (_ < _))

def asked (r : Receiving) : Nat := toSize r.left

def InRange (i : Int) : Prop := -2 ^ 31 ≤ i ∧ i < 2 ^ 31

instance (i : Int) : Decidable (InRange i) := inferInstanceAs (Decidable (_ ∧ _))

/-- `got += n` and `left -= n`, which have no result where they overflow. -/
def receive (r : Receiving) (bytes : Bytes) : Option Receiving :=
  if InRange (r.got + bytes.length) ∧ InRange (r.left - bytes.length) then
    some ⟨r.buff ++ bytes, r.got + bytes.length, r.left - bytes.length⟩
  else none

/-- A call is made and returns a positive number of bytes, at most as many as it asked for. -/
def Returns (size : Nat) (r : Receiving) (bytes : Bytes) : Prop :=
  r.Waits size ∧ 0 < bytes.length ∧ bytes.length ≤ r.asked ∧ InRange bytes.length

def next (r : Receiving) (bytes : Bytes) : Option (Unit × Receiving) :=
  (r.receive bytes).map fun r' => ((), r')

/-- Whatever the calls before it have returned, a call asks for the part of the buffer that is
still to be filled, and what it returns can be counted. -/
def Bounded (size : Nat) : Prop :=
  ∀ trace r, Run (Steps next (Returns size)) (start size) trace r → r.Waits size →
    0 ≤ r.got ∧ r.got + r.asked = size ∧ ∀ bytes, r.Returns size bytes → (r.next bytes).isSome

/-- Below `2 ^ 31` bytes the two counters always add up to the size. -/
structure Balanced (size : Nat) (r : Receiving) : Prop where
  got_eq : r.got = r.buff.length
  left_eq : r.left = size - r.buff.length
  le : r.buff.length ≤ size

variable {size : Nat} {r r' : Receiving} {bytes : Bytes}

theorem Balanced.asked_eq (h : r.Balanced size) (hsize : size < 2 ^ 31) :
    r.asked = size - r.buff.length := by
  have hle := h.le
  have hleft : r.left = (size - r.buff.length : Nat) := by
    rw [h.left_eq]
    omega
  rw [asked, hleft, toSize_natCast (by omega)]

theorem balanced_start (hsize : size < 2 ^ 31) : (start size).Balanced size := by
  constructor
  · rfl
  · rw [start, toInt_of_lt hsize]
    simp
  · exact Nat.zero_le _

theorem Balanced.receive (h : r.Balanced size) (hsize : size < 2 ^ 31)
    (hle : bytes.length ≤ r.asked) :
    ∃ r', r.receive bytes = some r' ∧ r'.Balanced size ∧ r'.buff = r.buff ++ bytes := by
  obtain ⟨hgot, hleft, hbuff⟩ := h
  have hasked := Balanced.asked_eq ⟨hgot, hleft, hbuff⟩ hsize
  refine ⟨_, if_pos ?_, ⟨?_, ?_, ?_⟩, rfl⟩
  · rw [InRange, InRange, hgot, hleft]
    omega
  · rw [hgot, List.length_append, Nat.cast_add]
  · change r.left - bytes.length = _
    rw [hleft, List.length_append]
    omega
  · rw [List.length_append]
    omega

theorem bounded_of_lt (hsize : size < 2 ^ 31) : Bounded size := by
  intro trace r hrun _
  have hbalanced : r.Balanced size := by
    apply hrun.invariant (balanced_start hsize)
    rintro s ⟨bytes, reply⟩ s' hs ⟨⟨_, _, hle, _⟩, hnext⟩
    obtain ⟨t, ht, hnext⟩ := Option.map_eq_some_iff.mp hnext
    cases hnext
    obtain ⟨t', ht', hbalanced, _⟩ := hs.receive hsize hle
    cases ht.symm.trans ht'
    exact hbalanced
  have hle := hbalanced.le
  refine ⟨?_, ?_, ?_⟩
  · rw [hbalanced.got_eq]
    omega
  · rw [hbalanced.got_eq, hbalanced.asked_eq hsize]
    omega
  · rintro bytes ⟨_, _, hasked, _⟩
    obtain ⟨r', hr', _⟩ := hbalanced.receive hsize hasked
    rw [next, hr']
    rfl

/-- The first call already asks for more than the buffer holds. -/
theorem not_bounded (hle : 2 ^ 31 ≤ size) (hlt : size < 2 ^ 32) : ¬ Bounded size := by
  intro h
  have hwaits : (start size).Waits size := by
    change toSize 0 < size
    rw [toSize]
    omega
  obtain ⟨_, hsum, _⟩ := h [] (start size) .nil hwaits
  have hasked : (start size).asked = size + (2 ^ 64 - 2 ^ 32) := by
    change toSize (toInt size) = _
    rw [toInt_eq hlt, if_neg (by omega), toSize]
    omega
  rw [hasked] at hsum
  change (0 : Int) + _ = _ at hsum
  omega

/-- The lengths that the counters of `recvall` can count. -/
theorem recvall_bounded_iff (len : UInt32) : Bounded len.toNat ↔ len.toNat < 2 ^ 31 := by
  constructor
  · intro h
    by_contra hge
    exact not_bounded (by omega) len.toNat_lt h
  · exact bounded_of_lt

/-- A header that announces `2 ^ 31` bytes. -/
theorem recvall_not_bounded : ¬ ∀ len : UInt32, Bounded len.toNat := by
  intro hall
  exact not_bounded (by decide) (by decide) (hall 0x80000000)

/-! ### A peer that has closed the connection -/

inductive Progress (α : Type)
  /-- the loop goes on with another call -/
  | waiting
  | returned (result : α) (fd : Inlet)
  | undefined

/-- The loop with so many calls. What is stored past the buffer or cannot be counted is undefined. -/
def recvallClosed (size : Nat) : (calls : Nat) → Receiving → Inlet → Progress (Bytes × Int)
  | 0, r, fd => if r.Waits size then .waiting else .returned (r.buff, r.got) fd
  | calls + 1, r, fd =>
    if r.Waits size then
      match fd.recvClosed r.asked with
      | (none, fd) => .returned ([], -1) fd
      | (some bytes, fd) =>
        match r.receive bytes with
        | none => .undefined
        | some r => if r.buff.length ≤ size then recvallClosed size calls r fd else .undefined
    else .returned (r.buff, r.got) fd

/-- After some number of calls there is a result, and it tells that bytes are missing. -/
def EndsIncomplete (size : Nat) (fd : Inlet) : Prop :=
  ∃ calls m n fd', recvallClosed size calls (start size) fd = .returned (m, n) fd' ∧ n ≠ size

/-- The loop of `recv_from_all` for a connection that the peer has closed. -/
def recvFromClosed [Machine] (calls calls' : Nat) (fd : Inlet) : Progress (Option Bytes) :=
  match recvallClosed 4 calls (start 4) fd with
  | .waiting => .waiting
  | .undefined => .undefined
  | .returned (m, n) fd =>
    if n ≤ 0 then .returned none fd
    else
      let len : UInt32 := ofImage Machine.order (m.take 4)
      match recvallClosed len.toNat calls' (start len.toNat) fd with
      | .waiting => .waiting
      | .undefined => .undefined
      | .returned (data, _) fd => .returned (some data) fd

/-- Fewer bytes than the header of a frame, or than the header announces. -/
def CutFrame [Machine] (stream : Bytes) : Prop :=
  stream.length < 4 ∨
    stream.length < 4 + (ofImage Machine.order (stream.take 4) : UInt32).toNat

variable {calls : Nat} {stream : Bytes} {cuts : Nat → Nat}

theorem waits_of_lt (hgot : r.got = r.buff.length) (hrange : InRange r.got)
    (hlt : r.buff.length < size) : r.Waits size := by
  obtain ⟨_, hrange⟩ := hrange
  rw [Waits, hgot, toSize_natCast (by omega)]
  exact hlt

theorem start_inRange (size : Nat) : InRange (start size).got := by
  change InRange 0
  decide

theorem Balanced.waits_iff (h : r.Balanced size) (hsize : size < 2 ^ 31) :
    r.Waits size ↔ r.buff.length < size := by
  have hle := h.le
  rw [Waits, h.got_eq, toSize_natCast (by omega)]

/-- Without the last byte there is always another call. -/
theorem recvallClosed_short (hgot : r.got = r.buff.length) (hrange : InRange r.got)
    (hlt : r.buff.length + stream.length < size) (result : Bytes × Int) (fd : Inlet) :
    recvallClosed size calls r (Inlet.steady stream cuts) ≠ .returned result fd := by
  have hwaits : r.Waits size := waits_of_lt hgot hrange (by omega)
  induction calls generalizing r stream cuts with
  | zero =>
    rw [recvallClosed, if_pos hwaits]
    rintro ⟨⟩
  | succ calls ih =>
    rw [recvallClosed, if_pos hwaits, Inlet.recvClosed_steady]
    set bytes := stream.take (portion r.asked (cuts 0))
    set rest := stream.drop (portion r.asked (cuts 0))
    have hlength : bytes.length + rest.length = stream.length := by
      rw [← List.length_append, List.take_append_drop]
    dsimp only
    rw [Receiving.receive]
    split
    · rintro ⟨⟩
    · rename_i t ht
      split at ht
      case isFalse => cases ht
      case isTrue hcount =>
        cases ht
        have hgot' : r.got + bytes.length = ((r.buff ++ bytes).length : Int) := by
          rw [hgot, List.length_append, Nat.cast_add]
        have hlt' : (r.buff ++ bytes).length + rest.length < size := by
          rw [List.length_append]
          omega
        have hroom : (r.buff ++ bytes).length < size := by omega
        rw [if_pos hroom.le]
        exact ih hgot' hcount.1 hlt' (waits_of_lt hgot' hcount.1 hroom)

/-- Where the bytes can be counted, the loop takes them as long as they come. -/
theorem Balanced.recvallClosed_succ (h : r.Balanced size) (hsize : size < 2 ^ 31)
    (hlt : r.buff.length < size) (stream : Bytes) (cuts : Nat → Nat) (calls : Nat) :
    ∃ n r', n ≤ stream.length ∧ r'.Balanced size ∧ r'.buff = r.buff ++ stream.take n ∧
      recvallClosed size (calls + 1) r (Inlet.steady stream cuts) =
        recvallClosed size calls r' (Inlet.steady (stream.drop n) fun i => cuts (i + 1)) := by
  have hasked := h.asked_eq hsize
  have hportion := portion_le r.asked (cuts 0)
  set n := min (portion r.asked (cuts 0)) stream.length
  have hn : n ≤ stream.length := Nat.min_le_right _ _
  have htake : stream.take (portion r.asked (cuts 0)) = stream.take n :=
    List.take_eq_take_min
  have hdrop : stream.drop (portion r.asked (cuts 0)) = stream.drop n :=
    List.drop_eq_drop_min
  have hlength : (stream.take n).length = n := List.length_take_of_le hn
  have hroom : (stream.take n).length ≤ r.asked := by omega
  obtain ⟨r', hr', hbalanced, hbuff⟩ := h.receive hsize hroom
  refine ⟨n, r', hn, hbalanced, hbuff, ?_⟩
  rw [recvallClosed, if_pos ((h.waits_iff hsize).mpr hlt), Inlet.recvClosed_steady, htake, hdrop]
  dsimp only
  rw [hr']
  exact if_pos hbalanced.le

/-- The calls behind the last byte change nothing. -/
theorem Balanced.recvallClosed_waiting (h : r.Balanced size) (hsize : size < 2 ^ 31)
    (hlt : r.buff.length + stream.length < size) :
    recvallClosed size calls r (Inlet.steady stream cuts) = .waiting := by
  induction calls generalizing r stream cuts with
  | zero =>
    have hroom : r.buff.length < size := by omega
    rw [recvallClosed, if_pos ((h.waits_iff hsize).mpr hroom)]
  | succ calls ih =>
    obtain ⟨n, r', hn, hbalanced, hbuff, hcall⟩ :=
      h.recvallClosed_succ hsize (by omega) stream cuts calls
    rw [hcall]
    apply ih hbalanced
    rw [hbuff, List.length_append, List.length_take, List.length_drop]
    omega

theorem Balanced.recvallClosed_full (h : r.Balanced size) (hsize : size < 2 ^ 31)
    (hfull : r.buff.length = size) (calls : Nat) (fd : Inlet) :
    recvallClosed size calls r fd = .returned (r.buff, size) fd := by
  have hdone : ¬ r.Waits size := by
    rw [h.waits_iff hsize]
    omega
  have hgot : r.got = size := h.got_eq.trans (congrArg Nat.cast hfull)
  cases calls with
  | zero => rw [recvallClosed, if_neg hdone, hgot]
  | succ calls => rw [recvallClosed, if_neg hdone, hgot]

/-- What it returns is as much of the stream as there was room for. -/
theorem Balanced.recvallClosed_returned (h : r.Balanced size) (hsize : size < 2 ^ 31)
    {m : Bytes} {n : Int} {fd : Inlet}
    (hreturned : recvallClosed size calls r (Inlet.steady stream cuts) = .returned (m, n) fd) :
    n = size ∧ m = r.buff ++ stream.take (size - r.buff.length) ∧
      ∃ cuts', fd = Inlet.steady (stream.drop (size - r.buff.length)) cuts' := by
  rcases h.le.eq_or_lt with hfull | hlt
  · rw [h.recvallClosed_full hsize hfull] at hreturned
    cases hreturned
    rw [hfull, Nat.sub_self, List.take_zero, List.append_nil, List.drop_zero]
    exact ⟨rfl, rfl, cuts, rfl⟩
  · induction calls generalizing r stream cuts with
    | zero =>
      rw [recvallClosed, if_pos ((h.waits_iff hsize).mpr hlt)] at hreturned
      cases hreturned
    | succ calls ih =>
      obtain ⟨k, r', hk, hbalanced, hbuff, hcall⟩ := h.recvallClosed_succ hsize hlt stream cuts calls
      rw [hcall] at hreturned
      have hlen : r'.buff.length = r.buff.length + k := by
        rw [hbuff, List.length_append, List.length_take_of_le hk]
      rcases hbalanced.le.eq_or_lt with hfull | hlt'
      · rw [hbalanced.recvallClosed_full hsize hfull] at hreturned
        cases hreturned
        have hk : size - r.buff.length = k := by omega
        rw [hk]
        exact ⟨rfl, hbuff, _, rfl⟩
      · obtain ⟨hn, hm, cuts', hfd⟩ := ih hbalanced hreturned hlt'
        have hsplit : size - r.buff.length = k + (size - r'.buff.length) := by omega
        refine ⟨hn, ?_, cuts', ?_⟩
        · rw [hm, hsplit, List.take_add, ← List.append_assoc, ← hbuff]
        · rw [hfd, hsplit, List.drop_drop]

theorem Balanced.recvallClosed_of_recvallLoop {turns : Nat} (h : r.Balanced size)
    (hsize : size < 2 ^ 31) {fd fd' : Inlet} {result : Bytes × Int}
    (hloop : recvallLoop size turns r.buff r.left fd = some (result, fd')) :
    recvallClosed size turns r fd = .returned result fd' := by
  induction turns generalizing r fd with
  | zero => cases hloop
  | succ turns ih =>
    rw [recvallLoop] at hloop
    split at hloop
    case isFalse hdone =>
      cases hloop
      have hle := h.le
      have hfull : r.buff.length = size := by omega
      rw [h.recvallClosed_full hsize hfull, hfull]
    case isTrue hlt =>
      obtain ⟨⟨bytes, fd₁⟩, hrecv, hloop⟩ := Option.bind_eq_some_iff.mp hloop
      rw [recvallClosed, if_pos ((h.waits_iff hsize).mpr hlt), asked,
        Inlet.recvClosed_of_recv hrecv]
      cases bytes with
      | none =>
        cases hloop
        rfl
      | some bytes =>
        dsimp only at hloop ⊢
        split at hloop
        case isFalse => cases hloop
        case isTrue hcount =>
          obtain ⟨hroom, hgot, hleft⟩ := hcount
          have hasked : bytes.length ≤ r.asked := by
            rw [h.asked_eq hsize]
            omega
          obtain ⟨r', hr', hbalanced, hbuff⟩ := h.receive hsize hasked
          have hleft' : r'.left = r.left - bytes.length := by
            rw [hbalanced.left_eq, h.left_eq, hbuff, List.length_append]
            omega
          rw [hr']
          rw [← hbuff, ← hleft'] at hloop
          dsimp only
          rw [if_pos hbalanced.le]
          exact ih hbalanced hloop

/-- As long as it does not have to wait, the loop goes the same way with the peer and without it. -/
theorem recvallClosed_of_recvall (hsize : size < 2 ^ 31) {fd fd' : Inlet} {result : Bytes × Int}
    (h : recvall fd size = some (result, fd')) :
    recvallClosed size (size + 1) (start size) fd = .returned result fd' :=
  (balanced_start hsize).recvallClosed_of_recvallLoop hsize h

/-- A frame that is cut short is not delivered, with or without its missing bytes. -/
theorem recvFromClosed_cut [Machine] (h : CutFrame stream) {calls' : Nat}
    (result : Option Bytes) (fd : Inlet) :
    recvFromClosed calls calls' (Inlet.steady stream cuts) ≠ .returned result fd := by
  intro hreturned
  rw [recvFromClosed] at hreturned
  cases hheader : recvallClosed 4 calls (start 4) (Inlet.steady stream cuts) with
  | waiting =>
    rw [hheader] at hreturned
    cases hreturned
  | undefined =>
    rw [hheader] at hreturned
    cases hreturned
  | returned r fd₁ =>
    obtain ⟨m, n⟩ := r
    rcases Nat.lt_or_ge stream.length 4 with hshort | hlong
    · exact recvallClosed_short rfl (start_inRange 4) (by simpa [start] using hshort) _ _ hheader
    · obtain ⟨rfl, rfl, cuts', rfl⟩ :=
        (balanced_start (by decide)).recvallClosed_returned (by decide) hheader
      rw [hheader] at hreturned
      simp only [start, List.nil_append, List.length_nil, Nat.sub_zero, List.take_take,
        Nat.min_self] at hreturned
      have hbody := h.resolve_left (by omega)
      set len : UInt32 := ofImage Machine.order (stream.take 4)
      rw [if_neg (by decide)] at hreturned
      split at hreturned
      · cases hreturned
      · cases hreturned
      · rename_i hdata
        refine recvallClosed_short (r := start len.toNat) rfl (start_inRange _) ?_ _ _ hdata
        change 0 + (stream.drop 4).length < _
        rw [List.length_drop]
        omega

/-- Once the peer has closed the connection too early, there is no result, however long one waits. -/
theorem recvall_closed_never (hshort : stream.length < size) :
    ¬ EndsIncomplete size (Inlet.steady stream cuts) ∧
      (size < 2 ^ 31 → ∀ calls,
        recvallClosed size calls (start size) (Inlet.steady stream cuts) = .waiting) ∧
      ∀ [Machine] (frame : Bytes), CutFrame frame → ∀ calls calls' cuts result fd,
        recvFromClosed calls calls' (Inlet.steady frame cuts) ≠ .returned result fd := by
  have hlt : (start size).buff.length + stream.length < size := by
    change 0 + stream.length < size
    omega
  refine ⟨?_, ?_, ?_⟩
  · rintro ⟨calls, m, n, fd', hreturned, _⟩
    exact recvallClosed_short rfl (start_inRange size) hlt _ _ hreturned
  · intro hsize calls
    exact (balanced_start hsize).recvallClosed_waiting hsize hlt
  · intro _ frame hcut calls calls' cuts result fd
    exact recvFromClosed_cut hcut result fd

theorem recvall_closed_never_header :
    ¬ EndsIncomplete 4 (Inlet.steady [1] fun _ => 0) ∧
      (4 < 2 ^ 31 → ∀ calls,
        recvallClosed 4 calls (start 4) (Inlet.steady [1] fun _ => 0) = .waiting) ∧
      ∀ [Machine] (frame : Bytes), CutFrame frame → ∀ calls calls' cuts result fd,
        recvFromClosed calls calls' (Inlet.steady frame cuts) ≠ .returned result fd :=
  recvall_closed_never (by decide)

/-- One byte of a header, and then the end of the stream. -/
theorem recvall_not_closed :
    ¬ ∀ size stream cuts, stream.length < size → EndsIncomplete size (Inlet.steady stream cuts) := by
  intro hall
  obtain ⟨calls, m, n, fd', hreturned, _⟩ := hall 4 [1] (fun _ => 0) (by decide)
  exact recvallClosed_short rfl (start_inRange 4) (by decide) _ _ hreturned

end Receiving

end Ambry
