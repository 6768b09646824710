import Ambry.Asf.SingleValue

/-!
# Bytes that nobody wrote

The decoder checks no length against what is left of the buffer, so it is safe
exactly on the buffers that hold a whole document. The length of a value is read
through a pointer, and making a view of the pointer looks for a zero byte first;
`sentinel` says that one stands right behind the buffer, as behind a string.
-/

namespace Ambry.Asf

open Foundation

section
variable [Machine] (sentinel shouldReverse : Bool)

omit [Machine] in
/-- A zero byte is found before the end of the buffer, or right behind it. -/
def terminated (bs : Bytes) : Bool := sentinel || bs.contains 0

/-- `read_to<uint32_t>(buff.data() + 1)`. -/
def readLength (buff : Bytes) : Outcome UInt32 :=
  if terminated sentinel (buff.drop 1) then readTo UInt32 (buff.drop 1) false
  else .error .undefined

/-- `_deserialize` around its recursive calls. -/
def deserializeAround (_deserialize : Bytes → Outcome (Value × Nat)) (buff : Bytes) :
    Outcome (Value × Nat) := do
  let type ← byteAt buff 0
  let len ← readLength sentinel buff
  let buff ← substr buff VALUE_HEADER_SIZE
  deserializeTyped _deserialize shouldReverse type len buff

namespace View

def _deserialize : (depth : Nat) → (buff : Bytes) → Outcome (Value × Nat)
  | 0, _ => .error .undefined
  | depth + 1, buff =>
    deserializeAround sentinel shouldReverse (_deserialize depth) buff

def deserializeValue (buff : Bytes) : Outcome Value := do
  deserializeCheck isMap buff
  let endian ← byteAt buff 1
  let body ← substr buff 6
  let (value, _) ← _deserialize sentinel (endian ≠ machineEndian) (buff.length + 1) body
  return value

def deserialize (buff : Bytes) : Outcome Map := do
  deserializeCheck isSingle buff
  let endian ← byteAt buff 1
  let rest ← substr buff 2
  let len ← readTo UInt32 rest false
  let body ← substr buff 6
  let (map, _) ← deserializeMap (_deserialize sentinel (endian ≠ machineEndian) (buff.length + 1))
    body (endian ≠ machineEndian) len
  return map

end View

/-- Behind a string there is always a zero byte. -/
theorem view_deserialize_string (depth : Nat) :
    View._deserialize true shouldReverse depth = _deserialize shouldReverse depth := by
  induction depth with
  | zero => rfl
  | succ depth ih =>
    funext buff
    rw [View._deserialize, ih, _deserialize]
    rfl

omit sentinel shouldReverse in
/-- On strings the calls are those of the decoder. -/
theorem view_string (buff : Bytes) : View.deserialize true buff = deserialize buff ∧
    View.deserializeValue true buff = deserializeValue buff := by
  constructor
  · rw [View.deserialize, deserialize]
    simp only [view_deserialize_string]
  · rw [View.deserializeValue, deserializeValue]
    simp only [view_deserialize_string]

/-! ### The format -/

/-- What a stretch of a buffer is read as: a value, or so many elements or entries. -/
inductive Shape
  | value
  | elems (n : Nat)
  | entries (n : Nat)

omit [Machine] in
/-- The bytes of a payload of fixed size. -/
def payloadSize (type : UInt8) : Option Nat :=
  match type with
  | 0 | 1 => some 1
  | 2 | 3 => some 2
  | 4 | 5 => some 4
  | 6 | 7 | 8 => some 8
  | _ => none

/-- A buffer begins with something of a shape that takes `n` bytes. Only a string may reach past
the end of the buffer, and only at its end. -/
inductive Spans : Shape → Bytes → Nat → Prop
  | fixed {type : UInt8} {bs body : Bytes} {size : Nat} (hbs : bs.length = 4)
      (hzero : terminated sentinel (bs ++ body)) (htype : payloadSize type = some size)
      (hsize : size ≤ body.length) : Spans .value (type :: (bs ++ body)) (5 + size)
  | string {bs body : Bytes} (hbs : bs.length = 4) (hzero : terminated sentinel (bs ++ body)) :
      Spans .value (9 :: (bs ++ body)) (5 + (ofImage Machine.order bs : UInt32).toNat)
  | array {bs body : Bytes} {n : Nat} (hbs : bs.length = 4)
      (hzero : terminated sentinel (bs ++ body))
      (hcount : (ofImage Machine.order bs : UInt32).toNat < 2 ^ 31)
      (helems : Spans (.elems (ofImage Machine.order bs : UInt32).toNat) body n) :
      Spans .value (10 :: (bs ++ body)) (5 + n)
  | map {bs body : Bytes} {n : Nat} (hbs : bs.length = 4)
      (hzero : terminated sentinel (bs ++ body))
      (hcount : (ofImage Machine.order bs : UInt32).toNat < 2 ^ 31)
      (hentries : Spans (.entries (ofImage Machine.order bs : UInt32).toNat) body n) :
      Spans .value (11 :: (bs ++ body)) (5 + n)
  | noElems {buff : Bytes} : Spans (.elems 0) buff 0
  | elem {buff : Bytes} {k n m : Nat} (hvalue : Spans .value buff n)
      (hothers : Spans (.elems k) (buff.drop n) m) : Spans (.elems (k + 1)) buff (n + m)
  | noEntries {buff : Bytes} : Spans (.entries 0) buff 0
  | entry {ks body : Bytes} {keyLen : UInt16} {k n m : Nat} (hks : ks.length = 2)
      (hkey : keyLen = ofImage Machine.order (if shouldReverse then ks.reverse else ks))
      (hvalue : Spans .value (body.drop keyLen.toNat) n)
      (hothers : Spans (.entries k) ((body.drop keyLen.toNat).drop n) m) :
      Spans (.entries (k + 1)) (ks ++ body) (2 + keyLen.toNat + n + m)

variable {sentinel shouldReverse}

/-! ### What is read spans its bytes -/

theorem readTo_eq_ok {T : Type} [Scalar T] {buff : Bytes} {n : T}
    (h : readTo T buff shouldReverse = .ok n) :
    ∃ bs rest, buff = bs ++ rest ∧ bs.length = Scalar.width T ∧
      n = ofImage Machine.order (if shouldReverse then bs.reverse else bs) := by
  rw [readTo] at h
  split at h
  · rename_i hlen
    cases h
    exact ⟨buff.take (Scalar.width T), buff.drop (Scalar.width T),
      (List.take_append_drop _ _).symm, hlen, rfl⟩
  · cases h

theorem deserializeAround_eq_ok {dec : Bytes → Outcome (Value × Nat)} {buff : Bytes}
    {result : Value × Nat} (h : deserializeAround sentinel shouldReverse dec buff = .ok result) :
    ∃ type bs body, buff = type :: (bs ++ body) ∧ bs.length = 4 ∧
      terminated sentinel (bs ++ body) ∧
      deserializeTyped dec shouldReverse type (ofImage Machine.order bs) body = .ok result := by
  obtain ⟨type, htype, h⟩ := bind_eq_ok h
  obtain ⟨len, hlen, h⟩ := bind_eq_ok h
  obtain ⟨body, hbody, hdone⟩ := bind_eq_ok h
  cases buff with
  | nil => cases htype
  | cons b buff =>
    cases htype
    rw [readLength, List.drop_one, List.tail_cons] at hlen
    split at hlen
    case isFalse => cases hlen
    case isTrue hzero =>
      obtain ⟨bs, rest, rfl, hbs, rfl⟩ := readTo_eq_ok hlen
      have hrest : substr (type :: (bs ++ rest)) VALUE_HEADER_SIZE = .ok rest := by
        have hfive : (type :: bs).length = VALUE_HEADER_SIZE := congrArg (· + 1) hbs
        exact substr_append hfive
      cases hrest.symm.trans hbody
      exact ⟨type, bs, body, rfl, hbs, hzero, hdone⟩

theorem deserializeAround_cons {dec : Bytes → Outcome (Value × Nat)} {type : UInt8} {bs body : Bytes}
    (hbs : bs.length = 4) (hzero : terminated sentinel (bs ++ body)) :
    deserializeAround sentinel shouldReverse dec (type :: (bs ++ body)) =
      deserializeTyped dec shouldReverse type (ofImage Machine.order bs) body := by
  have hfive : (type :: bs).length = VALUE_HEADER_SIZE := congrArg (· + 1) hbs
  have hbody : substr (type :: (bs ++ body)) VALUE_HEADER_SIZE = .ok body := substr_append hfive
  have hlen : readTo UInt32 (bs ++ body) false = .ok (ofImage Machine.order bs) :=
    readTo_bytes hbs body false
  rw [deserializeAround, readLength, List.drop_one, List.tail_cons, if_pos hzero, hlen, hbody]
  rfl

theorem readIntegral_eq_ok {T : Type} [Scalar T] {mk : T → Value} {buff : Bytes} {v : Value}
    {size : Nat} (h : readIntegral mk buff shouldReverse = .ok (v, size)) :
    size = Scalar.width T ∧ size ≤ buff.length := by
  obtain ⟨n, hn, h⟩ := bind_eq_ok h
  cases h
  obtain ⟨bs, rest, rfl, hbs, _⟩ := readTo_eq_ok hn
  refine ⟨rfl, ?_⟩
  rw [List.length_append]
  omega

theorem readIntegral_of_le {T : Type} [Scalar T] (mk : T → Value) {buff : Bytes}
    (h : Scalar.width T ≤ buff.length) :
    ∃ v, readIntegral mk buff shouldReverse = .ok (v, Scalar.width T) := by
  have hlen : (buff.take (Scalar.width T)).length = Scalar.width T := List.length_take_of_le h
  have hread := readTo_bytes hlen (buff.drop (Scalar.width T)) shouldReverse
  rw [List.take_append_drop] at hread
  rw [readIntegral, hread]
  exact ⟨_, rfl⟩

/-- A reader takes off the front of a buffer what spans it. -/
def SpansRead (sentinel shouldReverse : Bool) (dec : Bytes → Outcome (Value × Nat)) : Prop :=
  ∀ buff v size, dec buff = .ok (v, size) → Spans sentinel shouldReverse .value buff (5 + size)

theorem spans_elems {dec : Bytes → Outcome (Value × Nat)} (hdec : SpansRead sentinel shouldReverse dec)
    {buff : Bytes} {k i offset : Nat} {out res : List Value} {stop : Nat}
    (h : deserializeElems dec buff k i offset out = .ok (res, stop)) :
    (k ≠ 0 → i + k < 2 ^ 31) ∧
      ∃ n, stop = offset + n ∧ Spans sentinel shouldReverse (.elems k) (buff.drop offset) n := by
  induction k generalizing i offset out with
  | zero =>
    cases h
    exact ⟨fun hne => absurd rfl hne, 0, rfl, .noElems⟩
  | succ k ih =>
    obtain ⟨rest, hrest, h⟩ := bind_eq_ok h
    obtain ⟨⟨v, size⟩, hv, h⟩ := bind_eq_ok h
    obtain ⟨j, hj, h⟩ := bind_eq_ok h
    obtain ⟨hcount, n, rfl, hothers⟩ := ih h
    obtain ⟨_, rfl⟩ := substr_eq_ok hrest
    have hvalue := hdec _ _ _ hv
    rw [increment] at hj
    split at hj
    case isFalse => cases hj
    case isTrue hlt =>
      cases hj
      constructor
      · intro _
        rcases eq_or_ne k 0 with rfl | hk
        · exact hlt
        · have hcount := hcount hk
          omega
      · rw [← List.drop_drop] at hothers
        exact ⟨5 + size + n, Nat.add_assoc _ _ _, .elem hvalue hothers⟩

theorem spans_entries {dec : Bytes → Outcome (Value × Nat)}
    (hdec : SpansRead sentinel shouldReverse dec) {buff : Bytes} {k i offset : Nat} {out res : Map}
    {stop : Nat} (h : deserializeEntries dec shouldReverse buff k i offset out = .ok (res, stop)) :
    (k ≠ 0 → i + k < 2 ^ 31) ∧
      ∃ n, stop = offset + n ∧ Spans sentinel shouldReverse (.entries k) (buff.drop offset) n := by
  induction k generalizing i offset out with
  | zero =>
    cases h
    exact ⟨fun hne => absurd rfl hne, 0, rfl, .noEntries⟩
  | succ k ih =>
    obtain ⟨rest, hrest, h⟩ := bind_eq_ok h
    obtain ⟨keyLen, hkeyLen, h⟩ := bind_eq_ok h
    obtain ⟨rest', hrest', h⟩ := bind_eq_ok h
    obtain ⟨rest'', hrest'', h⟩ := bind_eq_ok h
    obtain ⟨⟨v, size⟩, hv, h⟩ := bind_eq_ok h
    obtain ⟨j, hj, h⟩ := bind_eq_ok h
    obtain ⟨hcount, n, rfl, hothers⟩ := ih h
    obtain ⟨_, rfl⟩ := substr_eq_ok hrest
    obtain ⟨_, rfl⟩ := substr_eq_ok hrest''
    obtain ⟨ks, body, hbody, hks, hkey⟩ := readTo_eq_ok hkeyLen
    have hks : ks.length = 2 := hks
    have hvalue := hdec _ _ _ hv
    have hfront : buff.drop (offset + (2 + keyLen.toNat)) = body.drop keyLen.toNat := by
      rw [← List.drop_drop, hbody, ← List.drop_drop, List.drop_left' hks]
    rw [hfront] at hvalue
    rw [← List.drop_drop, hfront] at hothers
    rw [increment] at hj
    split at hj
    case isFalse => cases hj
    case isTrue hlt =>
      cases hj
      constructor
      · intro _
        rcases eq_or_ne k 0 with rfl | hk
        · exact hlt
        · have hcount := hcount hk
          omega
      · refine ⟨2 + keyLen.toNat + (5 + size) + n, by simp only [VALUE_HEADER_SIZE]; omega, ?_⟩
        rw [hbody]
        exact .entry hks hkey hvalue hothers

theorem spans_typed {dec : Bytes → Outcome (Value × Nat)} (hdec : SpansRead sentinel shouldReverse dec)
    {type : UInt8} {bs body : Bytes} (hbs : bs.length = 4) (hzero : terminated sentinel (bs ++ body))
    {v : Value} {size : Nat}
    (h : deserializeTyped dec shouldReverse type (ofImage Machine.order bs) body = .ok (v, size)) :
    Spans sentinel shouldReverse .value (type :: (bs ++ body)) (5 + size) := by
  unfold deserializeTyped at h
  split at h
  case h_10 =>
    cases h
    exact .string hbs hzero
  case h_11 =>
    obtain ⟨⟨elems, stop⟩, helems, h⟩ := bind_eq_ok h
    cases h
    obtain ⟨hcount, n, rfl, hspans⟩ := spans_elems hdec helems
    rw [Nat.zero_add] at hcount ⊢
    exact .array hbs hzero (by omega) hspans
  case h_12 =>
    obtain ⟨⟨entries, stop⟩, hentries, h⟩ := bind_eq_ok h
    cases h
    obtain ⟨hcount, n, rfl, hspans⟩ := spans_entries hdec hentries
    rw [Nat.zero_add] at hcount ⊢
    exact .map hbs hzero (by omega) hspans
  case h_13 => cases h
  all_goals
    obtain ⟨rfl, hsize⟩ := readIntegral_eq_ok h
    exact .fixed hbs hzero rfl hsize

theorem spansRead_view (depth : Nat) :
    SpansRead sentinel shouldReverse (View._deserialize sentinel shouldReverse depth) := by
  induction depth with
  | zero =>
    intro buff v size h
    cases h
  | succ depth ih =>
    intro buff v size h
    obtain ⟨type, bs, body, rfl, hbs, hzero, h⟩ := deserializeAround_eq_ok h
    exact spans_typed ih hbs hzero h

/-! ### What spans its bytes is read -/

/-- What the decoder makes of something of a shape, from any offset and with any depth to spare. -/
def ReadAs (sentinel shouldReverse : Bool) : Shape → Bytes → Nat → Prop
  | .value, buff, n => 5 ≤ buff.length ∧ ∃ size, n = 5 + size ∧ ∀ depth, buff.length < depth →
      ∃ v, View._deserialize sentinel shouldReverse depth buff = .ok (v, size)
  | .elems k, rest, n => ∀ depth, rest.length < depth → ∀ buff offset i out,
      buff.drop offset = rest → (k ≠ 0 → i + k < 2 ^ 31) →
      ∃ res, deserializeElems (View._deserialize sentinel shouldReverse depth) buff k i offset out =
        .ok (res, offset + n)
  | .entries k, rest, n => ∀ depth, rest.length < depth → ∀ buff offset i out,
      buff.drop offset = rest → (k ≠ 0 → i + k < 2 ^ 31) →
      ∃ res, deserializeEntries (View._deserialize sentinel shouldReverse depth) shouldReverse buff k i
        offset out = .ok (res, offset + n)

omit [Machine] in
theorem substr_of_drop {buff rest : Bytes} {offset : Nat} (h : buff.drop offset = rest)
    (hne : 0 < rest.length) : substr buff offset = .ok rest := by
  rw [← h, List.length_drop] at hne
  rw [substr, if_pos (by omega), h]

theorem deserializeTyped_fixed (dec : Bytes → Outcome (Value × Nat)) (len : UInt32) {type : UInt8}
    {body : Bytes} {size : Nat} (htype : payloadSize type = some size) (hsize : size ≤ body.length) :
    ∃ v, deserializeTyped dec shouldReverse type len body = .ok (v, size) := by
  unfold payloadSize at htype
  split at htype
  case h_10 => cases htype
  all_goals
    cases htype
    exact readIntegral_of_le _ hsize

theorem view_deserialize_cons {depth : Nat} {type : UInt8} {bs body : Bytes} (hbs : bs.length = 4)
    (hzero : terminated sentinel (bs ++ body)) (hdepth : (type :: (bs ++ body)).length < depth) :
    ∃ d, body.length < d ∧ View._deserialize sentinel shouldReverse depth (type :: (bs ++ body)) =
      deserializeTyped (View._deserialize sentinel shouldReverse d) shouldReverse type
        (ofImage Machine.order bs) body := by
  obtain ⟨d, rfl⟩ := Nat.exists_eq_succ_of_ne_zero (Nat.ne_zero_of_lt hdepth)
  rw [List.length_cons, List.length_append] at hdepth
  exact ⟨d, by omega, deserializeAround_cons hbs hzero⟩

omit [Machine] in
theorem five_le_cons {type : UInt8} {bs body : Bytes} (hbs : bs.length = 4) :
    5 ≤ (type :: (bs ++ body)).length := by
  rw [List.length_cons, List.length_append]
  omega

theorem ReadAs.elem {rest : Bytes} {k n m : Nat}
    (hvalue : ReadAs sentinel shouldReverse .value rest n)
    (hothers : ReadAs sentinel shouldReverse (.elems k) (rest.drop n) m) :
    ReadAs sentinel shouldReverse (.elems (k + 1)) rest (n + m) := by
  intro depth hdepth buff offset i out hdrop hcount
  obtain ⟨hfive, size, rfl, hread⟩ := hvalue
  obtain ⟨v, hv⟩ := hread depth hdepth
  have hi : i + 1 < 2 ^ 31 := by
    have hcount := hcount (Nat.succ_ne_zero _)
    omega
  obtain ⟨res, hres⟩ := hothers depth (by rw [List.length_drop]; omega) buff
    (offset + (VALUE_HEADER_SIZE + size)) (i + 1) (out ++ [v])
    (by rw [← List.drop_drop, hdrop]; rfl) fun _ => by
      have hcount := hcount (Nat.succ_ne_zero _)
      omega
  refine ⟨res, ?_⟩
  rw [Nat.add_assoc] at hres
  rw [deserializeElems, substr_of_drop hdrop (by omega)]
  simp only [bind, Except.bind, hv, increment_eq hi]
  exact hres

theorem ReadAs.entry {ks body : Bytes} {keyLen : UInt16} {k n m : Nat} (hks : ks.length = 2)
    (hkey : keyLen = ofImage Machine.order (if shouldReverse then ks.reverse else ks))
    (hvalue : ReadAs sentinel shouldReverse .value (body.drop keyLen.toNat) n)
    (hothers : ReadAs sentinel shouldReverse (.entries k) ((body.drop keyLen.toNat).drop n) m) :
    ReadAs sentinel shouldReverse (.entries (k + 1)) (ks ++ body) (2 + keyLen.toNat + n + m) := by
  intro depth hdepth buff offset i out hdrop hcount
  obtain ⟨hfive, size, rfl, hread⟩ := hvalue
  rw [List.length_drop] at hfive
  rw [List.length_append] at hdepth
  obtain ⟨v, hv⟩ := hread depth (by rw [List.length_drop]; omega)
  have hi : i + 1 < 2 ^ 31 := by
    have hcount := hcount (Nat.succ_ne_zero _)
    omega
  have hbody : buff.drop (offset + 2) = body := by
    rw [← List.drop_drop, hdrop, List.drop_left' hks]
  have hfront : buff.drop (offset + (2 + keyLen.toNat)) = body.drop keyLen.toNat := by
    rw [← Nat.add_assoc, ← List.drop_drop, hbody]
  have hkeyLen : readTo UInt16 (ks ++ body) shouldReverse = .ok keyLen := by
    rw [hkey]
    exact readTo_bytes hks body shouldReverse
  obtain ⟨res, hres⟩ := hothers depth (by simp only [List.length_drop]; omega) buff
    (offset + (2 + keyLen.toNat) + (VALUE_HEADER_SIZE + size)) (i + 1)
    (emplace out (body.take keyLen.toNat) v)
    (by rw [← List.drop_drop, hfront]; rfl) fun _ => by
      have hcount := hcount (Nat.succ_ne_zero _)
      omega
  have hfirst := substr_of_drop hdrop (by rw [List.length_append]; omega)
  have hsecond := substr_of_drop hbody (by omega)
  have hthird := substr_of_drop hfront (by rw [List.length_drop]; omega)
  have hstop : offset + (2 + keyLen.toNat) + (VALUE_HEADER_SIZE + size) + m =
      offset + (2 + keyLen.toNat + (5 + size) + m) := by
    simp only [VALUE_HEADER_SIZE, Nat.add_assoc]
  rw [hstop] at hres
  refine ⟨res, ?_⟩
  rw [deserializeEntries]
  simp only [hfirst, hsecond, hthird, bind, Except.bind, hkeyLen, hv, increment_eq hi]
  exact hres

theorem Spans.read {shape : Shape} {buff : Bytes} {n : Nat}
    (h : Spans sentinel shouldReverse shape buff n) : ReadAs sentinel shouldReverse shape buff n := by
  induction h with
  | fixed hbs hzero htype hsize =>
    refine ⟨five_le_cons hbs, _, rfl, ?_⟩
    intro depth hdepth
    obtain ⟨d, _, hturn⟩ := view_deserialize_cons hbs hzero hdepth
    rw [hturn]
    exact deserializeTyped_fixed _ _ htype hsize
  | string hbs hzero =>
    refine ⟨five_le_cons hbs, _, rfl, ?_⟩
    intro depth hdepth
    obtain ⟨d, _, hturn⟩ := view_deserialize_cons hbs hzero hdepth
    rw [hturn]
    exact ⟨_, rfl⟩
  | array hbs hzero hcount helems ih =>
    refine ⟨five_le_cons hbs, _, rfl, ?_⟩
    intro depth hdepth
    obtain ⟨d, hd, hturn⟩ := view_deserialize_cons hbs hzero hdepth
    obtain ⟨res, hres⟩ := ih d hd _ 0 0 [] List.drop_zero fun _ => by omega
    rw [Nat.zero_add] at hres
    refine ⟨.array res, ?_⟩
    rw [hturn]
    change (deserializeArray _ _ _ >>= _) = _
    rw [deserializeArray, hres]
    rfl
  | map hbs hzero hcount hentries ih =>
    refine ⟨five_le_cons hbs, _, rfl, ?_⟩
    intro depth hdepth
    obtain ⟨d, hd, hturn⟩ := view_deserialize_cons hbs hzero hdepth
    obtain ⟨res, hres⟩ := ih d hd _ 0 0 [] List.drop_zero fun _ => by omega
    rw [Nat.zero_add] at hres
    refine ⟨.map res, ?_⟩
    rw [hturn]
    change (deserializeMap _ _ _ _ >>= _) = _
    rw [deserializeMap, hres]
    rfl
  | noElems =>
    intro depth _ buff offset i out _ _
    exact ⟨out, rfl⟩
  | elem _ _ ihvalue ihothers => exact ihvalue.elem ihothers
  | noEntries =>
    intro depth _ buff offset i out _ _
    exact ⟨out, rfl⟩
  | entry hks hkey _ _ ihvalue ihothers => exact .entry hks hkey ihvalue ihothers

/-! ### The recursion ends -/

section
variable {dec dec' : Bytes → Outcome (Value × Nat)} {buff : Bytes}

omit [Machine] in
theorem deserializeElems_congr (h : ∀ offset, dec (buff.drop offset) = dec' (buff.drop offset))
    (k i offset : Nat) (out : List Value) :
    deserializeElems dec buff k i offset out = deserializeElems dec' buff k i offset out := by
  induction k generalizing i offset out with
  | zero => rfl
  | succ k ih =>
    rw [deserializeElems, deserializeElems]
    cases hrest : substr buff offset with
    | error e => rfl
    | ok rest =>
      obtain ⟨_, rfl⟩ := substr_eq_ok hrest
      simp only [bind, Except.bind, h, ih]

theorem deserializeEntries_congr (h : ∀ offset, dec (buff.drop offset) = dec' (buff.drop offset))
    (k i offset : Nat) (out : Map) :
    deserializeEntries dec shouldReverse buff k i offset out =
      deserializeEntries dec' shouldReverse buff k i offset out := by
  induction k generalizing i offset out with
  | zero => rfl
  | succ k ih =>
    rw [deserializeEntries, deserializeEntries]
    refine congrArg _ (funext fun rest => ?_)
    refine congrArg _ (funext fun keyLen => ?_)
    refine congrArg _ (funext fun rest' => ?_)
    cases hrest : substr buff (offset + (2 + keyLen.toNat)) with
    | error e => simp only [hrest, bind, Except.bind]
    | ok rest'' =>
      obtain ⟨_, rfl⟩ := substr_eq_ok hrest
      simp only [hrest, bind, Except.bind, h, ih]

theorem deserializeTyped_congr (h : ∀ offset, dec (buff.drop offset) = dec' (buff.drop offset))
    (type : UInt8) (len : UInt32) : deserializeTyped dec shouldReverse type len buff =
      deserializeTyped dec' shouldReverse type len buff := by
  have helems : deserializeArray dec buff len = deserializeArray dec' buff len :=
    deserializeElems_congr h _ _ _ _
  have hentries : deserializeMap dec buff shouldReverse len =
      deserializeMap dec' buff shouldReverse len := deserializeEntries_congr h _ _ _ _
  unfold deserializeTyped
  rw [helems, hentries]

/-- A call reads its nested values from behind its header. -/
theorem deserializeAround_congr (h : ∀ rest, rest.length < buff.length → dec rest = dec' rest) :
    deserializeAround sentinel shouldReverse dec buff =
      deserializeAround sentinel shouldReverse dec' buff := by
  rw [deserializeAround, deserializeAround]
  cases buff with
  | nil => rfl
  | cons b buff =>
    refine congrArg _ (funext fun type => ?_)
    refine congrArg _ (funext fun len => ?_)
    cases hbody : substr (b :: buff) VALUE_HEADER_SIZE with
    | error e => rfl
    | ok body =>
      obtain ⟨_, rfl⟩ := substr_eq_ok hbody
      apply deserializeTyped_congr
      intro offset
      apply h
      rw [List.length_drop, List.length_drop, List.length_cons, VALUE_HEADER_SIZE]
      omega

/-- Whatever is put in place of the calls below it, a depth greater than the length of the buffer
gives the same: no call ever goes that deep. -/
theorem view_deserialize_ends (g : Bytes → Outcome (Value × Nat)) {depth : Nat}
    (h : buff.length < depth) :
    (deserializeAround sentinel shouldReverse)^[depth] g buff =
      View._deserialize sentinel shouldReverse depth buff := by
  induction depth generalizing buff with
  | zero => exact absurd h (Nat.not_lt_zero _)
  | succ depth ih =>
    rw [Function.iterate_succ_apply', View._deserialize]
    apply deserializeAround_congr
    intro rest hrest
    exact ih (by omega)

end

/-! ### Nothing behind the first check gives up -/

/-- A call that does not end with `nullopt`. -/
def Unrejecting {α : Type} (result : Outcome α) : Prop := result ≠ .error .nullopt

omit [Machine] in
theorem Unrejecting.bind {α β : Type} {x : Outcome α} {f : α → Outcome β} (hx : Unrejecting x)
    (hf : ∀ a, Unrejecting (f a)) : Unrejecting (x >>= f) := by
  cases x with
  | error e =>
    intro h
    cases h
    exact hx rfl
  | ok a => exact hf a

omit [Machine] in
theorem unrejecting_ok {α : Type} (a : α) : Unrejecting (.ok a) := by
  rintro ⟨⟩

omit [Machine] in
theorem unrejecting_undefined {α : Type} : Unrejecting (.error .undefined : Outcome α) := by
  rintro ⟨⟩

omit [Machine] in
theorem unrejecting_substr (buff : Bytes) (pos : Nat) : Unrejecting (substr buff pos) := by
  rw [substr]
  split
  · exact unrejecting_ok _
  · rintro ⟨⟩

omit [Machine] in
theorem unrejecting_byteAt (buff : Bytes) (i : Nat) : Unrejecting (byteAt buff i) := by
  rw [byteAt]
  split
  · exact unrejecting_ok _
  · exact unrejecting_undefined

omit [Machine] in
theorem unrejecting_increment (i : Nat) : Unrejecting (increment i) := by
  rw [increment]
  split
  · exact unrejecting_ok _
  · exact unrejecting_undefined

theorem unrejecting_readTo (T : Type) [Scalar T] (buff : Bytes) :
    Unrejecting (readTo T buff shouldReverse) := by
  rw [readTo]
  split
  · exact unrejecting_ok _
  · exact unrejecting_undefined

theorem unrejecting_readLength (buff : Bytes) : Unrejecting (readLength sentinel buff) := by
  rw [readLength]
  split
  · exact unrejecting_readTo _ _
  · exact unrejecting_undefined

section
variable {dec : Bytes → Outcome (Value × Nat)} (hdec : ∀ buff, Unrejecting (dec buff))
include hdec

omit [Machine] in
theorem unrejecting_elems (buff : Bytes) (k i offset : Nat) (out : List Value) :
    Unrejecting (deserializeElems dec buff k i offset out) := by
  induction k generalizing i offset out with
  | zero => exact unrejecting_ok _
  | succ k ih =>
    refine (unrejecting_substr _ _).bind fun rest => ?_
    refine (hdec rest).bind fun result => ?_
    refine (unrejecting_increment i).bind fun j => ?_
    exact ih _ _ _

theorem unrejecting_entries (buff : Bytes) (k i offset : Nat) (out : Map) :
    Unrejecting (deserializeEntries dec shouldReverse buff k i offset out) := by
  induction k generalizing i offset out with
  | zero => exact unrejecting_ok _
  | succ k ih =>
    refine (unrejecting_substr _ _).bind fun rest => ?_
    refine (unrejecting_readTo UInt16 rest).bind fun keyLen => ?_
    refine (unrejecting_substr _ _).bind fun rest' => ?_
    refine (unrejecting_substr _ _).bind fun rest'' => ?_
    refine (hdec rest'').bind fun result => ?_
    refine (unrejecting_increment i).bind fun j => ?_
    exact ih _ _ _

theorem unrejecting_typed (type : UInt8) (len : UInt32) (buff : Bytes) :
    Unrejecting (deserializeTyped dec shouldReverse type len buff) := by
  unfold deserializeTyped
  split
  case h_10 => exact unrejecting_ok _
  case h_11 => exact (unrejecting_elems hdec _ _ _ _ _).bind fun _ => unrejecting_ok _
  case h_12 => exact (unrejecting_entries hdec _ _ _ _ _).bind fun _ => unrejecting_ok _
  case h_13 => exact unrejecting_undefined
  all_goals exact (unrejecting_readTo _ _).bind fun _ => unrejecting_ok _

end

theorem unrejecting_view (depth : Nat) (buff : Bytes) :
    Unrejecting (View._deserialize sentinel shouldReverse depth buff) := by
  induction depth generalizing buff with
  | zero => exact unrejecting_undefined
  | succ depth ih =>
    refine (unrejecting_byteAt buff 0).bind fun type => ?_
    refine (unrejecting_readLength buff).bind fun len => ?_
    refine (unrejecting_substr _ _).bind fun body => ?_
    exact unrejecting_typed ih _ _ _

/-! ### More bytes behind the buffer -/

theorem Spans.string_of_view {shape : Shape} {buff : Bytes} {n : Nat}
    (h : Spans sentinel shouldReverse shape buff n) : Spans true shouldReverse shape buff n := by
  induction h with
  | fixed hbs _ htype hsize => exact .fixed hbs rfl htype hsize
  | string hbs _ => exact .string hbs rfl
  | array hbs _ hcount _ ih => exact .array hbs rfl hcount ih
  | map hbs _ hcount _ ih => exact .map hbs rfl hcount ih
  | noElems => exact .noElems
  | elem _ _ ihvalue ihothers => exact .elem ihvalue ihothers
  | noEntries => exact .noEntries
  | entry hks hkey _ _ ihvalue ihothers => exact .entry hks hkey ihvalue ihothers

/-- Nothing is left to be read behind the end of the buffer. -/
theorem spans_nil {shape : Shape} {n : Nat} (h : Spans sentinel shouldReverse shape [] n) :
    n = 0 ∧ (shape = .elems 0 ∨ shape = .entries 0) := by
  generalize hbuff : ([] : Bytes) = buff at h
  cases h with
  | noElems => exact ⟨rfl, .inl rfl⟩
  | noEntries => exact ⟨rfl, .inr rfl⟩
  | elem hvalue _ =>
    have hfive := hvalue.read.1
    rw [← hbuff] at hfive
    exact absurd hfive (by decide)
  | entry hks _ _ _ =>
    rw [List.append_eq_nil_iff.mp hbuff.symm |>.1] at hks
    cases hks
  | _ => cases hbuff

theorem Spans.append {shape : Shape} {buff : Bytes} {n : Nat} (more : Bytes)
    (h : Spans true shouldReverse shape buff n) :
    Spans true shouldReverse shape (buff ++ more) n := by
  have hdrop : ∀ (b : Bytes) (j : Nat) (shape : Shape) (m : Nat),
      Spans true shouldReverse shape (b.drop j) m →
      Spans true shouldReverse shape (b.drop j ++ more) m →
      Spans true shouldReverse shape ((b ++ more).drop j) m := by
    intro b j shape m hspans happend
    rcases Nat.le_total j b.length with hle | hle
    · rw [List.drop_append_of_le_length hle]
      exact happend
    · rw [List.drop_eq_nil_of_le hle] at hspans
      obtain ⟨rfl, rfl | rfl⟩ := spans_nil hspans
      · exact .noElems
      · exact .noEntries
  induction h with
  | fixed hbs _ htype hsize =>
    rw [List.cons_append, List.append_assoc]
    exact .fixed hbs rfl htype (hsize.trans (by rw [List.length_append]; omega))
  | string hbs _ =>
    rw [List.cons_append, List.append_assoc]
    exact .string hbs rfl
  | array hbs _ hcount _ ih =>
    rw [List.cons_append, List.append_assoc]
    exact .array hbs rfl hcount ih
  | map hbs _ hcount _ ih =>
    rw [List.cons_append, List.append_assoc]
    exact .map hbs rfl hcount ih
  | noElems => exact .noElems
  | elem _ hothers ihvalue ihothers =>
    exact .elem ihvalue (hdrop _ _ _ _ hothers ihothers)
  | noEntries => exact .noEntries
  | entry hks hkey hvalue hothers ihvalue ihothers =>
    rename_i ks body keyLen k n m
    rw [List.append_assoc]
    refine .entry hks hkey (hdrop _ _ _ _ hvalue ihvalue) ?_
    rw [List.drop_drop] at hothers ihothers ⊢
    exact hdrop _ _ _ _ hothers ihothers

/-! ### Documents -/

def reverses (buff : Bytes) : Bool := buff[1]? ≠ some machineEndian

def countOf (buff : Bytes) : Nat := (ofImage Machine.order ((buff.drop 2).take 4) : UInt32).toNat

/-- `DESERIALIZE_CHECK` fires. -/
def Rejected (type : Bytes → Bool) (buff : Bytes) : Prop :=
  buff = [] ∨ buff.length ≤ HEADER_SIZE ∨ type buff

/-- Two bytes of header, the count, and as many entries, which are all there. -/
def WholeMap (sentinel : Bool) (buff : Bytes) : Prop :=
  6 ≤ buff.length ∧ countOf buff < 2 ^ 31 ∧ ∃ n,
    Spans sentinel (reverses buff) (.entries (countOf buff)) (buff.drop 6) n ∧ 6 + n ≤ buff.length

/-- Two bytes of header and a value, as `serialize_value` writes them. -/
def WholeValue (buff : Bytes) : Prop :=
  2 ≤ buff.length ∧ ∃ n, Spans true (reverses buff) .value (buff.drop 2) n ∧ 2 + n ≤ buff.length

/-- There is a value at the place where `deserialize_value` looks for it. -/
def ReadableValue (sentinel : Bool) (buff : Bytes) : Prop :=
  6 ≤ buff.length ∧ ∃ n, Spans sentinel (reverses buff) .value (buff.drop 6) n

/-- The buffer ends before the document that it begins. -/
def CutShort (Whole : Bytes → Prop) (buff : Bytes) : Prop := ¬ Whole buff ∧ ∃ more, Whole (buff ++ more)

/-- A value or `nullopt`, and `nullopt` if the buffer is cut short. -/
def Robust {α : Type} (result : Outcome α) (cut : Prop) : Prop :=
  (result = .error .nullopt ∨ ∃ a, result = .ok a) ∧ (cut → result = .error .nullopt)

section
variable {buff : Bytes}

omit [Machine] in
theorem check_rejected {type : Bytes → Bool} (h : Rejected type buff) :
    deserializeCheck type buff = .error .nullopt := if_pos h

omit [Machine] in
theorem check_passed {type : Bytes → Bool} (h : ¬ Rejected type buff) :
    deserializeCheck type buff = .ok () := if_neg h

omit [Machine] in
/-- A call that never gives up is robust where it has a result and nothing is missing. -/
theorem robust_iff {α : Type} {result : Outcome α} {cut : Prop} (h : Unrejecting result) :
    Robust result cut ↔ (∃ a, result = .ok a) ∧ ¬ cut := by
  constructor
  · rintro ⟨hnull | hok, hcut⟩
    · exact absurd hnull h
    · exact ⟨hok, fun hc => h (hcut hc)⟩
  · rintro ⟨hok, hcut⟩
    exact ⟨.inr hok, fun hc => absurd hc hcut⟩

omit [Machine] in
theorem robust_rejected {α : Type} {result : Outcome α} (cut : Prop)
    (h : result = .error .nullopt) : Robust result cut := ⟨.inl h, fun _ => h⟩

omit [Machine] in
theorem length_of_passed {type : Bytes → Bool} (h : ¬ Rejected type buff) : 3 ≤ buff.length := by
  by_contra hlt
  exact h (.inr (.inl (by rw [HEADER_SIZE]; omega)))

/-- The byte-order byte is there, and decides whether to reverse. -/
theorem endian_eq (h : 3 ≤ buff.length) : ∃ endian, byteAt buff 1 = .ok endian ∧
    decide (endian ≠ machineEndian) = reverses buff := by
  have hbyte : buff[1]? = some buff[1] := List.getElem?_eq_getElem (by omega)
  refine ⟨buff[1], ?_, ?_⟩
  · rw [byteAt, hbyte]
  · rw [reverses, hbyte]
    simp

theorem deserialize_passed (h : ¬ Rejected isSingle buff) :
    View.deserialize sentinel buff = (do
      let rest ← substr buff 2
      let len ← readTo UInt32 rest false
      let body ← substr buff 6
      let (map, _) ← deserializeMap
        (View._deserialize sentinel (reverses buff) (buff.length + 1)) body (reverses buff) len
      return map) := by
  obtain ⟨endian, hendian, hreverse⟩ := endian_eq (length_of_passed h)
  rw [View.deserialize, check_passed h, hendian, ← hreverse]
  rfl

theorem deserializeValue_passed (h : ¬ Rejected isMap buff) :
    View.deserializeValue sentinel buff = (do
      let body ← substr buff 6
      let (value, _) ← View._deserialize sentinel (reverses buff) (buff.length + 1) body
      return value) := by
  obtain ⟨endian, hendian, hreverse⟩ := endian_eq (length_of_passed h)
  rw [View.deserializeValue, check_passed h, hendian, ← hreverse]
  rfl

theorem deserialize_ok_iff (h : ¬ Rejected isSingle buff) :
    (∃ m, View.deserialize sentinel buff = .ok m) ↔ 6 ≤ buff.length ∧ countOf buff < 2 ^ 31 ∧
      ∃ n, Spans sentinel (reverses buff) (.entries (countOf buff)) (buff.drop 6) n := by
  rw [deserialize_passed h]
  constructor
  · rintro ⟨m, hm⟩
    obtain ⟨rest, hrest, hm⟩ := bind_eq_ok hm
    obtain ⟨len, hlen, hm⟩ := bind_eq_ok hm
    obtain ⟨body, hbody, hm⟩ := bind_eq_ok hm
    obtain ⟨⟨map, stop⟩, hmap, _⟩ := bind_eq_ok hm
    obtain ⟨_, hrest⟩ := substr_eq_ok hrest
    obtain ⟨hsix, rfl⟩ := substr_eq_ok hbody
    obtain ⟨bs, tail, hbytes, hbs, hlen⟩ := readTo_eq_ok hlen
    have hfour : bs.length = 4 := hbs
    have hcount : len.toNat = countOf buff := by
      rw [countOf, ← hrest, hbytes, List.take_left' hfour, hlen]
      rfl
    rw [deserializeMap, hcount] at hmap
    obtain ⟨hlt, n, _, hspans⟩ := spans_entries (spansRead_view _) hmap
    exact ⟨hsix, by omega, n, hspans⟩
  · rintro ⟨hsix, hlt, n, hspans⟩
    have hfour : ((buff.drop 2).take 4).length = 4 := by
      rw [List.length_take, List.length_drop]
      omega
    have hrest : substr buff 2 = .ok (buff.drop 2) := if_pos (by omega)
    have hread : readTo UInt32 (buff.drop 2) false =
        .ok (ofImage Machine.order ((buff.drop 2).take 4)) := by
      have hread := @readTo_bytes _ UInt32 _ _ hfour ((buff.drop 2).drop 4) false
      rwa [List.take_append_drop] at hread
    have hbody : substr buff 6 = .ok (buff.drop 6) := if_pos hsix
    obtain ⟨res, hres⟩ := hspans.read (buff.length + 1) (by rw [List.length_drop]; omega)
      (buff.drop 6) 0 0 [] rfl fun _ => by omega
    rw [countOf] at hres
    refine ⟨res, ?_⟩
    rw [hrest, hbody]
    simp only [bind, Except.bind, hread, deserializeMap, hres]
    rfl

theorem deserializeValue_ok_iff (h : ¬ Rejected isMap buff) :
    (∃ v, View.deserializeValue sentinel buff = .ok v) ↔ ReadableValue sentinel buff := by
  rw [deserializeValue_passed h]
  constructor
  · rintro ⟨v, hv⟩
    obtain ⟨body, hbody, hv⟩ := bind_eq_ok hv
    obtain ⟨⟨value, size⟩, hvalue, _⟩ := bind_eq_ok hv
    obtain ⟨hsix, rfl⟩ := substr_eq_ok hbody
    exact ⟨hsix, _, spansRead_view _ _ _ _ hvalue⟩
  · rintro ⟨hsix, n, hspans⟩
    have hbody : substr buff 6 = .ok (buff.drop 6) := if_pos hsix
    obtain ⟨_, size, _, hread⟩ := hspans.read
    obtain ⟨v, hv⟩ := hread (buff.length + 1) (by rw [List.length_drop]; omega)
    refine ⟨v, ?_⟩
    rw [hbody]
    simp only [bind, Except.bind, hv]
    rfl

theorem deserialize_unrejecting (h : ¬ Rejected isSingle buff) :
    Unrejecting (View.deserialize sentinel buff) := by
  rw [deserialize_passed h]
  refine (unrejecting_substr _ _).bind fun rest => ?_
  refine (unrejecting_readTo UInt32 rest).bind fun len => ?_
  refine (unrejecting_substr _ _).bind fun body => ?_
  exact (unrejecting_entries (unrejecting_view _) _ _ _ _ _).bind fun _ => unrejecting_ok _

theorem deserializeValue_unrejecting (h : ¬ Rejected isMap buff) :
    Unrejecting (View.deserializeValue sentinel buff) := by
  rw [deserializeValue_passed h]
  refine (unrejecting_substr _ _).bind fun body => ?_
  exact (unrejecting_view _ _).bind fun _ => unrejecting_ok _

theorem WholeMap.string_of_view (h : WholeMap sentinel buff) : WholeMap true buff := by
  obtain ⟨hsix, hcount, n, hspans, hle⟩ := h
  exact ⟨hsix, hcount, n, hspans.string_of_view, hle⟩

/-- Entries that are counted in an `int` span a buffer in one way only. -/
theorem spans_entries_unique {k n n' : Nat} (hcount : k < 2 ^ 31)
    (h : Spans sentinel shouldReverse (.entries k) buff n)
    (h' : Spans sentinel shouldReverse (.entries k) buff n') : n = n' := by
  obtain ⟨res, hres⟩ := h.read (buff.length + 1) (Nat.lt_succ_self _) buff 0 0 [] rfl fun _ => by omega
  obtain ⟨res', hres'⟩ := h'.read (buff.length + 1) (Nat.lt_succ_self _) buff 0 0 [] rfl fun _ => by omega
  have hstop := (Prod.mk.inj (Except.ok.inj (hres.symm.trans hres'))).2
  omega

/-- A map that is read from bytes that are not all there is cut short: more bytes complete it. -/
theorem cutShort_of_spans (hsix : 6 ≤ buff.length) (hcount : countOf buff < 2 ^ 31) {n : Nat}
    (h : Spans sentinel (reverses buff) (.entries (countOf buff)) (buff.drop 6) n)
    (hlt : buff.length < 6 + n) : CutShort (WholeMap true) buff := by
  constructor
  · rintro ⟨_, _, n', h', hle⟩
    have heq := spans_entries_unique hcount h.string_of_view h'
    omega
  · refine ⟨List.replicate (6 + n) 0, ?_⟩
    have hreverses : reverses (buff ++ List.replicate (6 + n) 0) = reverses buff := by
      rw [reverses, reverses, List.getElem?_append_left (by omega)]
    have hcountOf : countOf (buff ++ List.replicate (6 + n) 0) = countOf buff := by
      rw [countOf, countOf, List.drop_append_of_le_length (by omega),
        List.take_append_of_le_length (by rw [List.length_drop]; omega)]
    rw [WholeMap, hreverses, hcountOf, List.drop_append_of_le_length hsix, List.length_append,
      List.length_replicate]
    exact ⟨by omega, hcount, n, h.string_of_view.append _, by omega⟩

/-- Reading ends for every buffer, and is safe exactly where a whole document is: a buffer is turned
away by the first check, or holds what is then read. -/
theorem malformed_rejected_iff (sentinel : Bool) (buff : Bytes) :
    (∀ shouldReverse g rest, ∀ depth > rest.length,
      (deserializeAround sentinel shouldReverse)^[depth] g rest =
        View._deserialize sentinel shouldReverse depth rest) ∧
    (Robust (View.deserialize sentinel buff) (CutShort (WholeMap true) buff) ↔
      Rejected isSingle buff ∨ WholeMap sentinel buff) ∧
    (Robust (View.deserializeValue sentinel buff) (CutShort WholeValue buff) ↔
      Rejected isMap buff ∨ ReadableValue sentinel buff ∧ ¬ CutShort WholeValue buff) := by
  refine ⟨fun _ g rest depth h => view_deserialize_ends g h, ?_, ?_⟩
  · by_cases hcheck : Rejected isSingle buff
    · have hnull : View.deserialize sentinel buff = .error .nullopt := by
        rw [View.deserialize, check_rejected hcheck]
        rfl
      exact iff_of_true (robust_rejected _ hnull) (.inl hcheck)
    rw [robust_iff (deserialize_unrejecting hcheck), deserialize_ok_iff hcheck, or_iff_right hcheck]
    constructor
    · rintro ⟨⟨hsix, hcount, n, hspans⟩, hcut⟩
      refine ⟨hsix, hcount, n, hspans, ?_⟩
      by_contra hlt
      exact hcut (cutShort_of_spans hsix hcount hspans (by omega))
    · intro hwhole
      refine ⟨⟨hwhole.1, hwhole.2.1, ?_⟩, fun hcut => hcut.1 hwhole.string_of_view⟩
      obtain ⟨_, _, n, hspans, _⟩ := hwhole
      exact ⟨n, hspans⟩
  · by_cases hcheck : Rejected isMap buff
    · have hnull : View.deserializeValue sentinel buff = .error .nullopt := by
        rw [View.deserializeValue, check_rejected hcheck]
        rfl
      exact iff_of_true (robust_rejected _ hnull) (.inl hcheck)
    rw [robust_iff (deserializeValue_unrejecting hcheck), deserializeValue_ok_iff hcheck,
      or_iff_right hcheck]

end

end

section
attribute [local instance] littleEndian

/-- A map with an array of one number under the key `a`. -/
example : WholeMap true
    [1, 1, 1, 0, 0, 0, 1, 0, 97, 10, 1, 0, 0, 0, 4, 4, 0, 0, 0, 7, 0, 0, 0] := by
  have hnumber : Spans true false .value (4 :: ([4, 0, 0, 0] ++ [7, 0, 0, 0])) (5 + 4) :=
    .fixed rfl rfl rfl (by decide)
  have harray : Spans true false .value
      (10 :: ([1, 0, 0, 0] ++ [4, 4, 0, 0, 0, 7, 0, 0, 0])) (5 + (9 + 0)) :=
    .array rfl rfl (by decide) (.elem hnumber .noElems)
  have hentry : Spans true false (.entries 1)
      ([1, 0] ++ [97, 10, 1, 0, 0, 0, 4, 4, 0, 0, 0, 7, 0, 0, 0])
      (2 + (1 : UInt16).toNat + 14 + 0) := .entry rfl rfl harray .noEntries
  exact ⟨by decide, by decide, 17, hentry, by decide⟩

/-- A string behind six bytes. -/
example : ReadableValue true [2, 1, 0, 0, 0, 0, 9, 2, 0, 0, 0, 104, 105] := by
  have hstring : Spans true false .value (9 :: ([2, 0, 0, 0] ++ [104, 105])) 7 := .string rfl rfl
  exact ⟨by decide, 7, hstring⟩

/-- Three bytes of a map, of a string: the count is read from behind them. -/
theorem malformed_not_rejected : ¬ ∀ (sentinel : Bool) (buff : Bytes),
    Robust (View.deserialize sentinel buff) (CutShort (WholeMap true) buff) ∧
      Robust (View.deserializeValue sentinel buff) (CutShort WholeValue buff) := by
  intro hall
  obtain ⟨⟨hnull | ⟨m, hm⟩, _⟩, _⟩ := hall true [1, 1, 0]
  · cases hnull
  · cases hm

end

end Ambry.Asf
