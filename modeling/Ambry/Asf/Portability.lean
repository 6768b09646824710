import Ambry.Asf.Doubles
import Ambry.Asf.SingleValue

/-!
# Buffers of another machine

The decoder reverses key lengths and integers where the byte order of the buffer
is not its own, and takes counts and lengths of strings as their bytes stand. So
it reads back exactly the maps whose counts and lengths are not changed by that;
the length of a string that ends the buffer may also be taken for a greater one.
-/

namespace Ambry.Asf

open Foundation

def byteswap (n : UInt32) : UInt32 := ofImage .big (image .little n)

namespace Value

mutual

/-- The counts and lengths in a value survive; `last` where the value ends the buffer. -/
def portable (last : Bool) : Value → Bool
  | .string s => if last then s.length ≤ (byteswap (UInt32.ofNat s.length)).toNat
      else byteswap (UInt32.ofNat s.length) = UInt32.ofNat s.length
  | .array elems => byteswap (UInt32.ofNat elems.length) = UInt32.ofNat elems.length &&
      portableElems last elems
  | .map entries => byteswap (UInt32.ofNat entries.length) = UInt32.ofNat entries.length &&
      portableEntries last entries
  | _ => true

def portableElems (last : Bool) : List Value → Bool
  | [] => true
  | v :: vs => portable (last && vs.isEmpty) v && portableElems last vs

def portableEntries (last : Bool) : Map → Bool
  | [] => true
  | e :: es => portableEntry (last && es.isEmpty) e && portableEntries last es

def portableEntry (last : Bool) : Bytes × Value → Bool
  | (_, value) => portable last value

end

end Value

section
variable [Machine]

/-- The encodings of a machine of byte order `o`. -/
def encoded (o : ByteOrder) (v : Value) : Bytes := @_serialize ⟨o⟩ v

def encodedElems (o : ByteOrder) (vs : List Value) : Bytes := @serializeElems ⟨o⟩ vs

def encodedEntries (o : ByteOrder) (es : Map) : Bytes := @serializeEntries ⟨o⟩ es

def encodedEntry (o : ByteOrder) (e : Bytes × Value) : Bytes := @serializeEntry ⟨o⟩ e

variable {o : ByteOrder}

omit [Machine] in
theorem encodedElems_cons (v : Value) (vs : List Value) :
    encodedElems o (v :: vs) = encoded o v ++ encodedElems o vs := rfl

omit [Machine] in
theorem encodedEntries_cons (e : Bytes × Value) (es : Map) :
    encodedEntries o (e :: es) = encodedEntry o e ++ encodedEntries o es := rfl

omit [Machine] in
theorem encodedEntry_eq (key : Bytes) (v : Value) :
    encodedEntry o (key, v) = image o (UInt16.ofNat key.length) ++ (key ++ encoded o v) := by
  simp only [encodedEntry, serializeEntry, encoded, writeTo, List.append_assoc]

omit [Machine] in
theorem length_encodedEntry (key : Bytes) (v : Value) :
    (encodedEntry o (key, v)).length = 2 + key.length + (encoded o v).length := by
  rw [encodedEntry_eq, List.length_append, List.length_append, image_length, Nat.add_assoc]
  rfl

omit [Machine] in
theorem encoded_string (s : Bytes) :
    encoded o (.string s) = 9 :: (image o (UInt32.ofNat s.length) ++ s) := by
  simp only [encoded, _serialize, serializeString, writeTo_byte, List.singleton_append]
  rfl

omit [Machine] in
theorem encoded_array (vs : List Value) :
    encoded o (.array vs) = 10 :: (image o (UInt32.ofNat vs.length) ++ encodedElems o vs) := by
  simp only [encoded, _serialize, writeTo_byte, List.singleton_append]
  rfl

omit [Machine] in
theorem encoded_map (es : Map) :
    encoded o (.map es) = 11 :: (image o (UInt32.ofNat es.length) ++ encodedEntries o es) := by
  simp only [encoded, _serialize, writeTo_byte, List.singleton_append]
  rfl

theorem length_encodedElems {vs : List Value}
    (h : ∀ v ∈ vs, (encoded o v).length = (_serialize v).length) :
    (encodedElems o vs).length = (serializeElems vs).length := by
  induction vs with
  | nil => rfl
  | cons v vs ih =>
    rw [encodedElems_cons, serializeElems, List.length_append, List.length_append,
      h v List.mem_cons_self, ih fun u hu => h u (List.mem_cons_of_mem v hu)]

theorem length_encodedEntries {es : Map}
    (h : ∀ e ∈ es, (encoded o e.2).length = (_serialize e.2).length) :
    (encodedEntries o es).length = (serializeEntries es).length := by
  induction es with
  | nil => rfl
  | cons e es ih =>
    obtain ⟨key, v⟩ := e
    have hentry : (serializeEntry (key, v)).length = 2 + key.length + (_serialize v).length :=
      length_serializeEntry (key, v)
    have hv : (encoded o v).length = (_serialize v).length := h (key, v) List.mem_cons_self
    have hes := ih fun d hd => h d (List.mem_cons_of_mem (key, v) hd)
    rw [encodedEntries_cons, serializeEntries, List.length_append, List.length_append,
      length_encodedEntry, hentry, hv, hes]

/-- Encodings of both byte orders have one length. -/
theorem length_encoded (v : Value) : (encoded o v).length = (_serialize v).length := by
  induction v using Value.nestedInduction with
  | string s =>
    rw [encoded_string, length_serialize_string, List.length_cons, List.length_append, image_length]
    simp only [Scalar.width]
    omega
  | array vs ih =>
    rw [encoded_array, length_serialize_array, List.length_cons, List.length_append, image_length,
      length_encodedElems ih]
    simp only [Scalar.width]
    omega
  | map es ih =>
    rw [encoded_map, length_serialize_map, List.length_cons, List.length_append, image_length,
      length_encodedEntries ih]
    simp only [Scalar.width]
    omega
  | _ n => simp [encoded, _serialize, integralCase]

end

section
variable [Machine] {o : ByteOrder} (ho : Machine.order ≠ o)
include ho

/-- What is taken for a count, or for the length of a string. -/
theorem ofImage_image_of_ne (n : UInt32) : ofImage Machine.order (image o n) = byteswap n := by
  cases horder : Machine.order <;> cases o
  · exact absurd horder ho
  · simp [byteswap, image, ofImage, ByteOrder.arrange]
  · rfl
  · exact absurd horder ho

theorem readTo_image_of_ne {T : Type} [Scalar T] (n : T) (rest : Bytes) :
    readTo T (image o n ++ rest) true = .ok n := by
  rw [readTo_bytes (image_length o n), if_pos rfl, image_reverse ho.symm, ofImage_image]

theorem _deserialize_counted (depth : Nat) (type : UInt8) (n : UInt32) (body : Bytes) :
    _deserialize true (depth + 1) (type :: (image o n ++ body)) =
      deserializeTyped (_deserialize true depth) true type (byteswap n) body := by
  rw [_deserialize_cons (image_length o n), ofImage_image_of_ne ho]

theorem _deserialize_integral {T : Type} [Scalar T] (mk : T → Value) (type : UInt8) (size : Int32)
    (n : T) (htype : ∀ dec len body, deserializeTyped dec true type len body =
      readIntegral mk body true) (depth : Nat) (rest : Bytes) :
    _deserialize true (depth + 1) (type :: (image o size ++ (image o n ++ rest))) =
      .ok (mk n, Scalar.width T) := by
  rw [_deserialize_cons (image_length o size), htype, readIntegral, readTo_image_of_ne ho]
  rfl

end

section
variable [Machine] {o : ByteOrder}

omit [Machine] in
/-- The decoder reads the value off the front of a buffer, where `last` says that it has to end
the buffer and that the bytes taken may then be miscounted. -/
def Takes (o : ByteOrder) (dec : Bytes → Outcome (Value × Nat)) (last : Bool) (v : Value) : Prop :=
  ∀ rest, (last = true → rest = []) → ∃ n, dec (encoded o v ++ rest) = .ok (v, n) ∧
    (last = false → VALUE_HEADER_SIZE + n = (encoded o v).length)

omit [Machine] in
theorem takes_elems {dec : Bytes → Outcome (Value × Nat)} {vs : List Value} {last : Bool}
    (hvs : ∀ v ∈ vs, ∀ last, v.portable last → Takes o dec last v)
    (hport : Value.portableElems last vs) {rest : Bytes} (hrest : last = true → rest = [])
    (pre : Bytes) (i : Nat) (out : List Value) (hi : i + vs.length < 2 ^ 31) :
    ∃ size, deserializeElems dec (pre ++ (encodedElems o vs ++ rest)) vs.length i pre.length out =
        .ok (out ++ vs, size) ∧
      (last = false → size = pre.length + (encodedElems o vs).length) := by
  induction vs generalizing pre i out with
  | nil =>
    refine ⟨pre.length, ?_, fun _ => rfl⟩
    rw [List.append_nil]
    rfl
  | cons v vs ih =>
    rw [Value.portableElems, Bool.and_eq_true] at hport
    obtain ⟨n, hv, hn⟩ := hvs v List.mem_cons_self _ hport.1 (encodedElems o vs ++ rest) (by
      intro hend
      rw [Bool.and_eq_true, List.isEmpty_iff] at hend
      obtain ⟨hlast, rfl⟩ := hend
      exact hrest hlast)
    rw [List.length_cons] at hi
    have hstep : deserializeElems dec (pre ++ (encodedElems o (v :: vs) ++ rest)) (v :: vs).length i
        pre.length out = deserializeElems dec (pre ++ (encodedElems o (v :: vs) ++ rest)) vs.length
          (i + 1) (pre.length + (VALUE_HEADER_SIZE + n)) (out ++ [v]) := by
      rw [List.length_cons, deserializeElems, substr_append rfl, encodedElems_cons,
        List.append_assoc (encoded o v)]
      simp only [bind, Except.bind, hv, increment_eq (show i + 1 < 2 ^ 31 by omega)]
    rw [hstep]
    by_cases hlater : vs = []
    · subst hlater
      refine ⟨pre.length + (VALUE_HEADER_SIZE + n), rfl, fun hlast => ?_⟩
      rw [hn (by rw [hlast]; rfl), encodedElems_cons, List.length_append]
      rfl
    · have hexact : VALUE_HEADER_SIZE + n = (encoded o v).length := by
        apply hn
        rw [List.isEmpty_eq_false_iff.mpr hlater, Bool.and_false]
      obtain ⟨size, hloop, hsize⟩ := ih (fun w hw => hvs w (List.mem_cons_of_mem v hw)) hport.2
        (pre ++ encoded o v) (i + 1) (out ++ [v]) (by omega)
      refine ⟨size, ?_, fun hlast => ?_⟩
      · rw [hexact, ← List.length_append, encodedElems_cons, List.append_assoc (encoded o v),
          ← List.append_assoc pre, hloop, List.append_assoc]
        rfl
      · rw [hsize hlast, encodedElems_cons, List.length_append, List.length_append, Nat.add_assoc]

theorem deserializeEntries_step (ho : Machine.order ≠ o) (dec : Bytes → Outcome (Value × Nat))
    {key : Bytes} (hkey : key.length < 2 ^ 16) (v : Value) (es : Map) (rest pre : Bytes) (n i : Nat)
    (out : Map) :
    deserializeEntries dec true (pre ++ (encodedEntries o ((key, v) :: es) ++ rest)) (n + 1) i
        pre.length out =
      (dec (encoded o v ++ (encodedEntries o es ++ rest)) >>= fun r => increment i >>= fun i =>
        deserializeEntries dec true (pre ++ (encodedEntries o ((key, v) :: es) ++ rest)) n i
          (pre.length + (2 + key.length) + (VALUE_HEADER_SIZE + r.2)) (emplace out key r.1)) := by
  have hentry : encodedEntries o ((key, v) :: es) ++ rest = image o (UInt16.ofNat key.length) ++
      (key ++ (encoded o v ++ (encodedEntries o es ++ rest))) := by
    simp only [encodedEntries_cons, encodedEntry_eq, List.append_assoc]
  rw [hentry]
  exact deserializeEntries_turn dec (image_length o _) hkey (readTo_image_of_ne ho _) pre _ n i out

theorem takes_entries (ho : Machine.order ≠ o) {dec : Bytes → Outcome (Value × Nat)} {es : Map}
    {last : Bool} (hes : ∀ e ∈ es, ∀ last, e.2.portable last → Takes o dec last e.2)
    (hport : Value.portableEntries last es) {rest : Bytes} (hrest : last = true → rest = [])
    (hkeys : ∀ e ∈ es, e.1.length < 2 ^ 16) (pre : Bytes) (i : Nat) (out : Map)
    (hi : i + es.length < 2 ^ 31) (hnodup : ((out ++ es).map Prod.fst).Nodup) :
    ∃ size, deserializeEntries dec true (pre ++ (encodedEntries o es ++ rest)) es.length i pre.length
        out = .ok (out ++ es, size) ∧
      (last = false → size = pre.length + (encodedEntries o es).length) := by
  induction es generalizing pre i out with
  | nil =>
    refine ⟨pre.length, ?_, fun _ => rfl⟩
    rw [List.append_nil]
    rfl
  | cons e es ih =>
    obtain ⟨key, v⟩ := e
    rw [Value.portableEntries, Value.portableEntry, Bool.and_eq_true] at hport
    obtain ⟨n, hv, hn⟩ := hes (key, v) List.mem_cons_self _ hport.1 (encodedEntries o es ++ rest) (by
      intro hend
      rw [Bool.and_eq_true, List.isEmpty_iff] at hend
      obtain ⟨hlast, rfl⟩ := hend
      exact hrest hlast)
    rw [List.length_cons] at hi
    have habsent : key ∉ out.map Prod.fst := by
      rw [List.map_append, List.map_cons] at hnodup
      exact fun hmem => (List.nodup_append.mp hnodup).2.2 _ hmem _ List.mem_cons_self rfl
    rw [List.length_cons, deserializeEntries_step ho dec (hkeys (key, v) List.mem_cons_self)]
    simp only [bind, Except.bind, hv, increment_eq (show i + 1 < 2 ^ 31 by omega), emplace,
      if_neg habsent]
    by_cases hlater : es = []
    · subst hlater
      refine ⟨_, rfl, fun hlast => ?_⟩
      rw [hn (by rw [hlast]; rfl), encodedEntries_cons, List.length_append, length_encodedEntry,
        Nat.add_assoc]
      rfl
    · have hexact : VALUE_HEADER_SIZE + n = (encoded o v).length := by
        apply hn
        rw [List.isEmpty_eq_false_iff.mpr hlater, Bool.and_false]
      have hnodup' : ((out ++ [(key, v)] ++ es).map Prod.fst).Nodup := by
        rw [List.append_assoc]
        exact hnodup
      obtain ⟨size, hloop, hsize⟩ := ih (fun w hw => hes w (List.mem_cons_of_mem _ hw)) hport.2
        (fun w hw => hkeys w (List.mem_cons_of_mem _ hw)) (pre ++ encodedEntry o (key, v)) (i + 1)
        (out ++ [(key, v)]) (by omega) hnodup'
      rw [List.length_append, length_encodedEntry, List.append_assoc, List.append_assoc] at hloop
      refine ⟨size, ?_, fun hlast => ?_⟩
      · rw [hexact, Nat.add_assoc pre.length, encodedEntries_cons, List.append_assoc, hloop]
        rfl
      · rw [hsize hlast, encodedEntries_cons, List.length_append, List.length_append, Nat.add_assoc]

theorem Takes.integral (ho : Machine.order ≠ o) {T : Type} [Scalar T] (mk : T → Value) (type : UInt8)
    (size : Int32) (n : T) (htype : ∀ dec len body, deserializeTyped dec true type len body =
      readIntegral mk body true)
    (hencoded : encoded o (mk n) = type :: (image o size ++ image o n)) (depth : Nat) (last : Bool) :
    Takes o (_deserialize true (depth + 1)) last (mk n) := by
  intro rest _
  refine ⟨Scalar.width T, ?_, fun _ => ?_⟩
  · rw [hencoded, List.cons_append, List.append_assoc]
    exact _deserialize_integral ho mk type size n htype depth rest
  · rw [hencoded, List.length_cons, List.length_append, image_length, image_length]
    simp only [Scalar.width, VALUE_HEADER_SIZE]
    omega

omit [Machine] in
theorem toNat_ofNat_length {n : Nat} (h : n < 2 ^ 31) : (UInt32.ofNat n).toNat = n := by
  rw [UInt32.toNat_ofNat', Nat.mod_eq_of_lt (by omega)]

theorem Takes.string (ho : Machine.order ≠ o) {s : Bytes} (hlen : s.length < 2 ^ 31) {last : Bool}
    (hport : (Value.string s).portable last) (depth : Nat) :
    Takes o (_deserialize true (depth + 1)) last (.string s) := by
  intro rest hrest
  refine ⟨(byteswap (UInt32.ofNat s.length)).toNat, ?_, fun hlast => ?_⟩
  · have htake : (s ++ rest).take (byteswap (UInt32.ofNat s.length)).toNat = s := by
      cases last with
      | false =>
        simp only [Value.portable, Bool.false_eq_true, if_false, decide_eq_true_eq] at hport
        rw [hport, toNat_ofNat_length hlen, List.take_left' rfl]
      | true =>
        simp only [Value.portable, if_true, decide_eq_true_eq] at hport
        rw [hrest rfl, List.append_nil, List.take_of_length_le hport]
    rw [encoded_string, List.cons_append, List.append_assoc, _deserialize_counted ho]
    simp only [deserializeTyped, htake]
  · subst hlast
    simp only [Value.portable, Bool.false_eq_true, if_false, decide_eq_true_eq] at hport
    rw [hport, toNat_ofNat_length hlen, encoded_string, List.length_cons, List.length_append,
      image_length]
    simp only [Scalar.width, VALUE_HEADER_SIZE]
    omega

theorem Takes.array (ho : Machine.order ≠ o) {depth : Nat} {vs : List Value} {last : Bool}
    (hlen : vs.length < 2 ^ 31)
    (hvs : ∀ v ∈ vs, ∀ last, v.portable last → Takes o (_deserialize true depth) last v)
    (hport : (Value.array vs).portable last) :
    Takes o (_deserialize true (depth + 1)) last (.array vs) := by
  intro rest hrest
  simp only [Value.portable, Bool.and_eq_true, decide_eq_true_eq] at hport
  obtain ⟨size, hloop, hsize⟩ := takes_elems hvs hport.2 hrest [] 0 [] (by omega)
  refine ⟨size, ?_, fun hlast => ?_⟩
  · rw [encoded_array, List.cons_append, List.append_assoc, _deserialize_counted ho]
    rw [List.nil_append, List.length_nil, List.nil_append] at hloop
    simp only [deserializeTyped, deserializeArray, hport.1, toNat_ofNat_length hlen, hloop, bind,
      Except.bind]
    rfl
  · rw [hsize hlast, encoded_array, List.length_cons, List.length_append, image_length]
    simp only [Scalar.width, VALUE_HEADER_SIZE, List.length_nil]
    omega

theorem takes_map (ho : Machine.order ≠ o) {dec : Bytes → Outcome (Value × Nat)} {es : Map}
    {last : Bool} (hlen : es.length < 2 ^ 31) (hkeys : ∀ e ∈ es, e.1.length < 2 ^ 16)
    (hnodup : (es.map Prod.fst).Nodup)
    (hes : ∀ e ∈ es, ∀ last, e.2.portable last → Takes o dec last e.2)
    (hport : (Value.map es).portable last) {rest : Bytes} (hrest : last = true → rest = []) :
    ∃ size, deserializeMap dec (encodedEntries o es ++ rest) true
        (byteswap (UInt32.ofNat es.length)) = .ok (es, size) ∧
      (last = false → size = (encodedEntries o es).length) := by
  simp only [Value.portable, Bool.and_eq_true, decide_eq_true_eq] at hport
  obtain ⟨size, hloop, hsize⟩ := takes_entries ho hes hport.2 hrest hkeys [] 0 [] (by omega) hnodup
  rw [List.nil_append, List.length_nil, List.nil_append] at hloop
  refine ⟨size, ?_, fun hlast => ?_⟩
  · rw [deserializeMap, hport.1, toNat_ofNat_length hlen, hloop]
  · rw [hsize hlast, List.length_nil, Nat.zero_add]

theorem Takes.map (ho : Machine.order ≠ o) {depth : Nat} {es : Map} {last : Bool}
    (hlen : es.length < 2 ^ 31) (hkeys : ∀ e ∈ es, e.1.length < 2 ^ 16)
    (hnodup : (es.map Prod.fst).Nodup)
    (hes : ∀ e ∈ es, ∀ last, e.2.portable last → Takes o (_deserialize true depth) last e.2)
    (hport : (Value.map es).portable last) :
    Takes o (_deserialize true (depth + 1)) last (.map es) := by
  intro rest hrest
  obtain ⟨size, hmap, hsize⟩ := takes_map ho hlen hkeys hnodup hes hport hrest
  refine ⟨size, ?_, fun hlast => ?_⟩
  · rw [encoded_map, List.cons_append, List.append_assoc, _deserialize_counted ho]
    simp only [deserializeTyped, hmap, bind, Except.bind]
    rfl
  · rw [hsize hlast, encoded_map, List.length_cons, List.length_append, image_length]
    simp only [Scalar.width, VALUE_HEADER_SIZE]
    omega

theorem takes_of_portable (ho : Machine.order ≠ o) (v : Value) (hwf : v.wellFormed)
    (hnd : v.noDouble) : ∀ depth, (_serialize v).length < depth →
      ∀ last, v.portable last → Takes o (_deserialize true depth) last v := by
  induction v using Value.nestedInduction with
  | double bits => cases hnd
  | string s =>
    rintro (_ | depth) hdepth last hport
    · cases hdepth
    · simp only [Value.wellFormed, decide_eq_true_eq] at hwf
      exact .string ho hwf hport depth
  | array vs ih =>
    rintro (_ | depth) hdepth last hport
    · cases hdepth
    simp only [Value.wellFormed, Bool.and_eq_true, decide_eq_true_eq] at hwf
    rw [Value.wellFormedElems_iff] at hwf
    rw [Value.noDouble, Value.noDoubleElems_iff] at hnd
    refine .array ho hwf.1 (fun v hv => ih v hv (hwf.2 v hv) (hnd v hv) depth ?_) hport
    have hle := length_le_serializeElems hv
    rw [length_serialize_array] at hdepth
    omega
  | map es ih =>
    rintro (_ | depth) hdepth last hport
    · cases hdepth
    simp only [Value.wellFormed, Bool.and_eq_true, decide_eq_true_eq] at hwf
    rw [Value.wellFormedEntries_iff] at hwf
    rw [Value.noDouble, Value.noDoubleEntries_iff] at hnd
    refine .map ho hwf.1.1 (fun e he => (hwf.2 e he).1) hwf.1.2
      (fun e he => ih e he (hwf.2 e he).2 (hnd e he) depth ?_) hport
    have hle := length_le_serializeEntries he
    rw [length_serialize_map] at hdepth
    omega
  | _ n =>
    rintro (_ | depth) hdepth last hport
    · cases hdepth
    · apply Takes.integral ho
      case hencoded =>
        simp only [encoded, _serialize, integralCase]
        rw [@writeTo_byte ⟨o⟩]
        rfl
      case htype =>
        intro _ _ _
        rfl

/-- A value that comes back is portable and takes its own bytes; or it takes more, and then it may
end the buffer. -/
def Tells (o : ByteOrder) (dec : Bytes → Outcome (Value × Nat)) (v : Value) : Prop :=
  ∀ rest w n, dec (encoded o v ++ rest) = .ok (w, n) → v.same w →
    ((∀ last, v.portable last) ∧ VALUE_HEADER_SIZE + n = (encoded o v).length) ∨
      ((encoded o v).length < VALUE_HEADER_SIZE + n ∧ (rest = [] → v.portable true))

/-- Elements that come back took no fewer bytes than they were written in. -/
theorem encodedElems_fits {dec : Bytes → Outcome (Value × Nat)} (hfits : Fits dec)
    {vs more : List Value} (hwf : ∀ v ∈ vs, v.wellFormed) (hnd : ∀ v ∈ vs, v.noDouble)
    {buff : Bytes} {i pos size : Nat} {out : List Value}
    (h : deserializeElems dec buff vs.length i pos out = .ok (out ++ more, size))
    (hsame : Value.sameElems vs more) :
    pos + (encodedElems o vs).length ≤ size ∧
      (vs ≠ [] → pos + (encodedElems o vs).length ≤ buff.length) := by
  have hndMore : Value.noDoubleElems more :=
    Value.noDouble_of_sameElems (fun v hv => Value.noDouble_of_same (hwf v hv)) hsame
      (Value.noDoubleElems_iff.mpr hnd)
  have hle : (encodedElems o vs).length ≤ (serializeElems more).length := by
    rw [length_encodedElems fun v _ => length_encoded v]
    exact length_of_sameElems (fun v hv => length_of_same (hwf v hv)) hsame
  obtain ⟨hsize, hbuff⟩ := serializeElems_fits hfits h (Value.noDoubleElems_iff.mp hndMore)
  refine ⟨by omega, fun hne => ?_⟩
  have hbuff := hbuff fun hzero => absurd (List.length_eq_zero_iff.mp hzero) hne
  omega

/-- `n` may be more than there are entries. -/
theorem encodedEntries_fits {dec : Bytes → Outcome (Value × Nat)} (hfits : Fits dec)
    (hheader : TakesHeader dec) {es more : Map} (hwf : ∀ e ∈ es, e.2.wellFormed)
    (hnodup : (es.map Prod.fst).Nodup) (hlen : es.length = more.length)
    (hmore : ∀ e ∈ more, e.2.noDouble) {buff : Bytes} {n i pos size : Nat} {out : Map}
    (h : deserializeEntries dec true buff n i pos out = .ok (out ++ more, size))
    (hsame : Value.sameEntries es more) :
    pos + (encodedEntries o es).length ≤ size ∧
      (n ≠ 0 → pos + (encodedEntries o es).length ≤ buff.length) := by
  have hle : (encodedEntries o es).length ≤ (serializeEntries more).length := by
    rw [length_encodedEntries fun e _ => length_encoded e.2]
    exact length_of_sameEntries hnodup hlen (fun e he => length_of_same (hwf e he)) hsame
  obtain ⟨_, hsize, hbuff⟩ := serializeEntries_fits hfits hheader h hmore
  refine ⟨by omega, fun hne => ?_⟩
  have hbuff := hbuff fun hzero => absurd hzero hne
  omega

theorem tells_elems {dec : Bytes → Outcome (Value × Nat)} (hfits : Fits dec) {vs : List Value}
    (hvs : ∀ v ∈ vs, Tells o dec v) (hwf : ∀ v ∈ vs, v.wellFormed) (hnd : ∀ v ∈ vs, v.noDouble)
    {rest : Bytes} {size : Nat} {pre : Bytes} {i : Nat} {out ws : List Value}
    (h : deserializeElems dec (pre ++ (encodedElems o vs ++ rest)) vs.length i pre.length out =
      .ok (out ++ ws, size)) (hsame : Value.sameElems vs ws) :
    ((∀ last, Value.portableElems last vs) ∧ size = pre.length + (encodedElems o vs).length) ∨
      (pre.length + (encodedElems o vs).length < size ∧
        (rest = [] → Value.portableElems true vs)) := by
  induction vs generalizing pre i out ws with
  | nil =>
    obtain ⟨_, rfl⟩ := Prod.mk.inj (Except.ok.inj h)
    exact .inl ⟨fun _ => rfl, rfl⟩
  | cons v vs ih =>
    rw [List.length_cons, encodedElems_cons, List.append_assoc] at h
    obtain ⟨ahead, hahead, h⟩ := bind_eq_ok h
    rw [substr_append rfl] at hahead
    cases hahead
    obtain ⟨⟨w, n⟩, hw, h⟩ := bind_eq_ok h
    obtain ⟨j, _, h⟩ := bind_eq_ok h
    obtain ⟨more, hmore⟩ := deserializeElems_prefix h
    rw [List.append_assoc] at hmore
    obtain rfl : ws = w :: more := List.append_cancel_left hmore
    rw [Value.sameElems, Bool.and_eq_true] at hsame
    rw [List.append_cons out w more] at h
    have hlength : (encodedElems o (v :: vs)).length =
        (encoded o v).length + (encodedElems o vs).length := by
      rw [encodedElems_cons, List.length_append]
    have hportable : ∀ last, Value.portableElems last (v :: vs) =
        (v.portable (last && vs.isEmpty) && Value.portableElems last vs) := fun _ => rfl
    simp only [hportable, Bool.and_eq_true, hlength]
    obtain ⟨hport, hexact⟩ | ⟨hover, hport⟩ := hvs v List.mem_cons_self _ w n hw hsame.1
    · rw [hexact, ← List.length_append, ← List.append_assoc] at h
      obtain ⟨hports, hsize⟩ | ⟨hsize, hports⟩ := ih (fun u hu => hvs u (List.mem_cons_of_mem v hu))
        (fun u hu => hwf u (List.mem_cons_of_mem v hu))
        (fun u hu => hnd u (List.mem_cons_of_mem v hu)) h hsame.2
      · rw [List.length_append, Nat.add_assoc] at hsize
        exact .inl ⟨fun last => ⟨hport _, hports last⟩, hsize⟩
      · rw [List.length_append, Nat.add_assoc] at hsize
        exact .inr ⟨hsize, fun hend => ⟨hport _, hports hend⟩⟩
    · -- the bytes taken too many are missing for the elements that follow
      obtain ⟨hsize, hbuff⟩ := encodedElems_fits (o := o) hfits
        (fun u hu => hwf u (List.mem_cons_of_mem v hu))
        (fun u hu => hnd u (List.mem_cons_of_mem v hu)) h hsame.2
      refine .inr ⟨by omega, fun hend => ?_⟩
      cases vs with
      | nil =>
        refine ⟨hport ?_, rfl⟩
        rw [hend]
        rfl
      | cons u vs =>
        have hbuff := hbuff (List.cons_ne_nil u vs)
        rw [hend] at hbuff
        simp only [List.length_append, List.length_nil] at hbuff
        omega

/-- The turns after the entries find no key, but take bytes. -/
theorem tells_extra {dec : Bytes → Outcome (Value × Nat)} (hfits : Fits dec)
    (hheader : TakesHeader dec) {pre rest : Bytes} {extra i size : Nat} {out : Map}
    (h : deserializeEntries dec true (pre ++ rest) extra i pre.length out = .ok (out ++ [], size)) :
    (extra = 0 ∧ size = pre.length) ∨ (pre.length < size ∧ rest ≠ []) := by
  obtain ⟨_, hsize, hbuff⟩ := serializeEntries_fits hfits hheader h fun e he => by cases he
  cases extra with
  | zero =>
    obtain ⟨_, rfl⟩ := Prod.mk.inj (Except.ok.inj h)
    exact .inl ⟨rfl, rfl⟩
  | succ extra =>
    have hbuff := hbuff fun hzero => absurd hzero (Nat.succ_ne_zero extra)
    simp only [serializeEntries, List.length_nil] at hsize
    refine .inr ⟨by omega, ?_⟩
    rintro rfl
    rw [List.append_nil] at hbuff
    simp only [serializeEntries, List.length_nil] at hbuff
    omega

/-- `extra` turns of the loop are more than there are entries. -/
theorem tells_entries (ho : Machine.order ≠ o) {dec : Bytes → Outcome (Value × Nat)}
    (hfits : Fits dec) (hheader : TakesHeader dec) {es : Map} (hes : ∀ e ∈ es, Tells o dec e.2)
    (hwf : ∀ e ∈ es, e.1.length < 2 ^ 16 ∧ e.2.wellFormed) (hnodup : (es.map Prod.fst).Nodup)
    {rest : Bytes} {extra size : Nat} {pre : Bytes} {i : Nat} {out more : Map}
    (h : deserializeEntries dec true (pre ++ (encodedEntries o es ++ rest)) (es.length + extra) i
      pre.length out = .ok (out ++ more, size))
    (hlen : es.length = more.length) (hmore : ∀ e ∈ more, e.2.noDouble)
    (habsent : ∀ e ∈ es, e.1 ∉ out.map Prod.fst) (hsame : Value.sameEntries es more) :
    (extra = 0 ∧ (∀ last, Value.portableEntries last es) ∧
        size = pre.length + (encodedEntries o es).length) ∨
      (pre.length + (encodedEntries o es).length < size ∧
        (rest = [] → extra = 0 ∧ Value.portableEntries true es)) := by
  induction es generalizing pre i out more with
  | nil =>
    obtain rfl := List.length_eq_zero_iff.mp hlen.symm
    have hnil : encodedEntries o [] = [] := rfl
    rw [List.length_nil, Nat.zero_add, hnil, List.nil_append] at h
    obtain ⟨hextra, hsize⟩ | ⟨hsize, hrest⟩ := tells_extra hfits hheader h
    · exact .inl ⟨hextra, fun _ => rfl, hsize⟩
    · exact .inr ⟨hsize, fun hend => absurd hend hrest⟩
  | cons e es ih =>
    obtain ⟨key, v⟩ := e
    obtain ⟨hkey, hwfv⟩ : key.length < 2 ^ 16 ∧ v.wellFormed := hwf (key, v) List.mem_cons_self
    have habsentKey : key ∉ out.map Prod.fst := habsent (key, v) List.mem_cons_self
    obtain ⟨hother, hnodup⟩ := List.nodup_cons.mp hnodup
    have hkeyNe : ∀ d ∈ es, d.1 ≠ key := fun d hd heq =>
      hother (heq ▸ List.mem_map.mpr ⟨d, hd, rfl⟩)
    rw [List.length_cons, Nat.add_right_comm, deserializeEntries_step ho dec hkey] at h
    obtain ⟨⟨w, n⟩, hw, h⟩ := bind_eq_ok h
    obtain ⟨j, _, h⟩ := bind_eq_ok h
    rw [emplace, if_neg habsentKey] at h
    obtain ⟨later, hlater⟩ := deserializeEntries_prefix h
    rw [List.append_assoc] at hlater
    obtain rfl : more = (key, w) :: later := List.append_cancel_left hlater
    rw [List.append_cons out (key, w) later] at h
    rw [List.length_cons, List.length_cons] at hlen
    obtain ⟨hv, hsameLater⟩ := Value.sameEntries_cons hkeyNe hsame
    have hmoreLater : ∀ d ∈ later, d.2.noDouble := fun d hd => hmore d (List.mem_cons_of_mem _ hd)
    have hlength : (encodedEntries o ((key, v) :: es)).length =
        2 + key.length + (encoded o v).length + (encodedEntries o es).length := by
      rw [encodedEntries_cons, List.length_append, length_encodedEntry]
    have hportable : ∀ last, Value.portableEntries last ((key, v) :: es) =
        (v.portable (last && es.isEmpty) && Value.portableEntries last es) := fun _ => rfl
    simp only [hportable, Bool.and_eq_true, hlength]
    obtain ⟨hport, hexact⟩ | ⟨hover, hport⟩ := hes (key, v) List.mem_cons_self _ w n hw hv
    · have hfront : pre.length + (2 + key.length) + (VALUE_HEADER_SIZE + n) =
          (pre ++ encodedEntry o (key, v)).length := by
        rw [hexact, List.length_append, length_encodedEntry, Nat.add_assoc]
      rw [hfront, encodedEntries_cons, List.append_assoc, ← List.append_assoc pre] at h
      have habsentLater : ∀ d ∈ es, d.1 ∉ (out ++ [(key, w)]).map Prod.fst := by
        intro d hd hmem
        rw [List.map_append, List.mem_append, List.map_singleton, List.mem_singleton] at hmem
        obtain hmem | hmem := hmem
        · exact habsent d (List.mem_cons_of_mem _ hd) hmem
        · exact hkeyNe d hd hmem
      have hrest := ih (fun d hd => hes d (List.mem_cons_of_mem _ hd))
        (fun d hd => hwf d (List.mem_cons_of_mem _ hd)) hnodup h (Nat.succ_inj.mp hlen) hmoreLater
        habsentLater hsameLater
      rw [List.length_append, length_encodedEntry] at hrest
      obtain ⟨hextra, hports, hsize⟩ | ⟨hsize, hports⟩ := hrest
      · exact .inl ⟨hextra, fun last => ⟨hport _, hports last⟩, by omega⟩
      · exact .inr ⟨by omega, fun hend => ⟨(hports hend).1, hport _, (hports hend).2⟩⟩
    · -- the bytes taken too many are missing for the entries that follow
      obtain ⟨hsize, hbuff⟩ := encodedEntries_fits (o := o) hfits hheader
        (fun d hd => (hwf d (List.mem_cons_of_mem _ hd)).2) hnodup (Nat.succ_inj.mp hlen) hmoreLater
        h hsameLater
      have hover' : (encoded o v).length < VALUE_HEADER_SIZE + n := hover
      refine .inr ⟨by omega, fun hend => ?_⟩
      by_cases hcount : es.length + extra = 0
      · obtain ⟨hnil, hextra⟩ := Nat.add_eq_zero_iff.mp hcount
        obtain rfl := List.length_eq_zero_iff.mp hnil
        refine ⟨hextra, hport ?_, rfl⟩
        rw [hend]
        rfl
      · have hbuff := hbuff hcount
        rw [hend, List.append_nil, List.length_append, hlength] at hbuff
        omega

omit [Machine] in
theorem deserializeElems_length {dec : Bytes → Outcome (Value × Nat)} {buff : Bytes}
    {n i offset : Nat} {out res : List Value} {size : Nat}
    (h : deserializeElems dec buff n i offset out = .ok (res, size)) : res.length = out.length + n := by
  induction n generalizing i offset out with
  | zero =>
    cases h
    rfl
  | succ n ih =>
    obtain ⟨_, _, h⟩ := bind_eq_ok h
    obtain ⟨_, _, h⟩ := bind_eq_ok h
    obtain ⟨_, _, h⟩ := bind_eq_ok h
    rw [ih h, List.length_append, List.length_singleton, Nat.add_assoc, Nat.add_comm 1]

omit [Machine] in
theorem length_of_sameElems_eq {vs ws : List Value} (h : Value.sameElems vs ws) :
    vs.length = ws.length := by
  induction vs generalizing ws with
  | nil =>
    cases ws with
    | nil => rfl
    | cons w ws => cases h
  | cons v vs ih =>
    cases ws with
    | nil => cases h
    | cons w ws =>
      rw [Value.sameElems, Bool.and_eq_true] at h
      rw [List.length_cons, List.length_cons, ih h.2]

omit [Machine] in
theorem byteswap_eq_of_toNat {n : Nat} (hn : n < 2 ^ 31)
    (h : (byteswap (UInt32.ofNat n)).toNat = n) : byteswap (UInt32.ofNat n) = UInt32.ofNat n := by
  rw [← UInt32.toNat_inj, h, toNat_ofNat_length hn]

theorem Tells.integral (ho : Machine.order ≠ o) {T : Type} [Scalar T] (mk : T → Value) (type : UInt8)
    (size : Int32) (n : T) (htype : ∀ dec len body, deserializeTyped dec true type len body =
      readIntegral mk body true) (hport : ∀ last, (mk n).portable last)
    (hencoded : encoded o (mk n) = type :: (image o size ++ image o n)) (depth : Nat) :
    Tells o (_deserialize true (depth + 1)) (mk n) := by
  intro rest w m h _
  rw [hencoded, List.cons_append, List.append_assoc,
    _deserialize_integral ho mk type size n htype] at h
  cases h
  refine .inl ⟨hport, ?_⟩
  rw [hencoded, List.length_cons, List.length_append, image_length, image_length]
  simp only [Scalar.width, VALUE_HEADER_SIZE]
  omega

theorem Tells.string (ho : Machine.order ≠ o) {s : Bytes} (hlen : s.length < 2 ^ 31) (depth : Nat) :
    Tells o (_deserialize true (depth + 1)) (.string s) := by
  intro rest w n h hsame
  rw [encoded_string, List.cons_append, List.append_assoc, _deserialize_counted ho] at h
  cases h
  rw [Value.same, decide_eq_true_eq] at hsame
  have hlength : (encoded o (.string s)).length = 5 + s.length := by
    rw [length_encoded, length_serialize_string]
  have htaken := congrArg List.length hsame
  rw [List.length_take, List.length_append] at htaken
  rw [hlength, VALUE_HEADER_SIZE]
  by_cases hexact : (byteswap (UInt32.ofNat s.length)).toNat = s.length
  · refine .inl ⟨fun last => ?_, by rw [hexact]⟩
    simp only [Value.portable, byteswap_eq_of_toNat hlen hexact, toNat_ofNat_length hlen, le_refl,
      decide_true, ite_self]
  · refine .inr ⟨by omega, fun hend => ?_⟩
    simp only [Value.portable, if_true, decide_eq_true_eq]
    omega

theorem Tells.array (ho : Machine.order ≠ o) {vs : List Value} (hwf : (Value.array vs).wellFormed)
    (hnd : (Value.array vs).noDouble) {depth : Nat}
    (hvs : ∀ v ∈ vs, Tells o (_deserialize true depth) v) :
    Tells o (_deserialize true (depth + 1)) (.array vs) := by
  intro rest w n h hsame
  rw [encoded_array, List.cons_append, List.append_assoc, _deserialize_counted ho] at h
  obtain ⟨⟨elems, size⟩, helems, h⟩ := bind_eq_ok h
  cases h
  simp only [Value.wellFormed, Bool.and_eq_true, decide_eq_true_eq] at hwf
  rw [Value.wellFormedElems_iff] at hwf
  rw [Value.noDouble, Value.noDoubleElems_iff] at hnd
  rw [Value.same] at hsame
  -- an array of the same length has been read in as many turns
  have hcount := deserializeElems_length helems
  rw [← length_of_sameElems_eq hsame, List.length_nil, Nat.zero_add] at hcount
  rw [deserializeArray, ← hcount] at helems
  have hloop : deserializeElems (_deserialize true depth) ([] ++ (encodedElems o vs ++ rest))
      vs.length 0 ([] : Bytes).length [] = .ok ([] ++ elems, n) := helems
  have hlength : (encoded o (.array vs)).length = 5 + (encodedElems o vs).length := by
    rw [length_encoded, length_serialize_array, length_encodedElems fun u _ => length_encoded u]
  have hsymmetric := byteswap_eq_of_toNat hwf.1 hcount.symm
  rw [hlength, VALUE_HEADER_SIZE]
  simp only [Value.portable, hsymmetric, decide_true, Bool.true_and]
  obtain ⟨hports, hsize⟩ | ⟨hsize, hports⟩ :=
    tells_elems (fits_deserialize true depth) hvs hwf.2 hnd hloop hsame
  · rw [List.length_nil] at hsize
    exact .inl ⟨hports, by omega⟩
  · rw [List.length_nil] at hsize
    exact .inr ⟨by omega, hports⟩

theorem tells_map (ho : Machine.order ≠ o) {es : Map} (hwf : (Value.map es).wellFormed)
    (hnd : (Value.map es).noDouble) {depth : Nat}
    (hes : ∀ e ∈ es, Tells o (_deserialize true depth) e.2) {rest : Bytes} {res : Map} {size : Nat}
    (h : deserializeMap (_deserialize true depth) (encodedEntries o es ++ rest) true
      (byteswap (UInt32.ofNat es.length)) = .ok (res, size))
    (hsame : (Value.map es).same (.map res)) :
    ((∀ last, (Value.map es).portable last) ∧ size = (encodedEntries o es).length) ∨
      ((encodedEntries o es).length < size ∧ (rest = [] → (Value.map es).portable true)) := by
  have hndRes : (Value.map res).noDouble := Value.noDouble_of_same hwf _ hsame hnd
  simp only [Value.wellFormed, Bool.and_eq_true, decide_eq_true_eq] at hwf
  obtain ⟨⟨hlen, hnodup⟩, hentries⟩ := hwf
  rw [Value.wellFormedEntries_iff] at hentries
  rw [Value.noDouble, Value.noDoubleEntries_iff] at hndRes
  simp only [Value.same, Bool.and_eq_true, decide_eq_true_eq] at hsame
  have hfits := fits_deserialize true depth
  have hheader := takesHeader_deserialize true depth
  rw [deserializeMap] at h
  have hstart : deserializeEntries (_deserialize true depth) true (encodedEntries o es ++ rest)
      (byteswap (UInt32.ofNat es.length)).toNat 0 0 [] = .ok ([] ++ res, size) := h
  -- as many turns as entries, or more when keys come again
  have hturns : res.length ≤ (byteswap (UInt32.ofNat es.length)).toNat :=
    (serializeEntries_fits hfits hheader hstart hndRes).1
  rw [← hsame.1] at hturns
  obtain ⟨extra, hextra⟩ := Nat.exists_eq_add_of_le hturns
  have hloop : deserializeEntries (_deserialize true depth) true
      ([] ++ (encodedEntries o es ++ rest)) (es.length + extra) 0 ([] : Bytes).length [] =
        .ok ([] ++ res, size) := hextra ▸ h
  have hportable : ∀ last, extra = 0 → Value.portableEntries last es →
      (Value.map es).portable last := by
    rintro last rfl hports
    simp only [Value.portable, byteswap_eq_of_toNat hlen hextra, decide_true, Bool.true_and, hports]
  obtain ⟨hzero, hports, hsize⟩ | ⟨hsize, hports⟩ := tells_entries ho hfits hheader hes hentries
    hnodup hloop hsame.1 hndRes (fun _ _ => List.not_mem_nil) hsame.2
  · rw [List.length_nil, Nat.zero_add] at hsize
    exact .inl ⟨fun last => hportable last hzero (hports last), hsize⟩
  · rw [List.length_nil, Nat.zero_add] at hsize
    exact .inr ⟨hsize, fun hend => hportable true (hports hend).1 (hports hend).2⟩

theorem Tells.map (ho : Machine.order ≠ o) {es : Map} (hwf : (Value.map es).wellFormed)
    (hnd : (Value.map es).noDouble) {depth : Nat}
    (hes : ∀ e ∈ es, Tells o (_deserialize true depth) e.2) :
    Tells o (_deserialize true (depth + 1)) (.map es) := by
  intro rest w n h hsame
  rw [encoded_map, List.cons_append, List.append_assoc, _deserialize_counted ho] at h
  obtain ⟨⟨res, size⟩, hmap, h⟩ := bind_eq_ok h
  cases h
  have hlength : (encoded o (.map es)).length = 5 + (encodedEntries o es).length := by
    rw [length_encoded, length_serialize_map, length_encodedEntries fun e _ => length_encoded e.2]
  rw [hlength, VALUE_HEADER_SIZE]
  obtain ⟨hport, hsize⟩ | ⟨hsize, hport⟩ := tells_map ho hwf hnd hes hmap hsame
  · exact .inl ⟨hport, by rw [hsize]⟩
  · exact .inr ⟨by omega, hport⟩

theorem tells (ho : Machine.order ≠ o) (v : Value) (hwf : v.wellFormed) (hnd : v.noDouble)
    (depth : Nat) : Tells o (_deserialize true depth) v := by
  induction v using Value.nestedInduction generalizing depth with
  | double bits => cases hnd
  | string s =>
    cases depth with
    | zero => exact fun _ _ _ h => by cases h
    | succ depth =>
      simp only [Value.wellFormed, decide_eq_true_eq] at hwf
      exact .string ho hwf depth
  | array vs ih =>
    cases depth with
    | zero => exact fun _ _ _ h => by cases h
    | succ depth =>
      refine .array ho hwf hnd fun v hv => ih v hv ?_ ?_ depth
      · simp only [Value.wellFormed, Bool.and_eq_true] at hwf
        exact Value.wellFormedElems_iff.mp hwf.2 v hv
      · exact Value.noDoubleElems_iff.mp hnd v hv
  | map es ih =>
    cases depth with
    | zero => exact fun _ _ _ h => by cases h
    | succ depth =>
      refine .map ho hwf hnd fun e he => ih e he (wellFormed_of_mem hwf he) ?_ depth
      exact Value.noDoubleEntries_iff.mp hnd e he
  | _ n =>
    cases depth with
    | zero => exact fun _ _ _ h => by cases h
    | succ depth =>
      apply Tells.integral ho
      case hencoded =>
        simp only [encoded, _serialize, integralCase]
        rw [@writeTo_byte ⟨o⟩]
        rfl
      case htype =>
        intro _ _ _
        rfl
      case hport => exact fun _ => rfl

theorem deserialize_foreign (ho : Machine.order ≠ o) (m : Map) :
    deserialize (@serialize ⟨o⟩ m) =
      (deserializeMap (_deserialize true ((encodedEntries o m).length + 7)) (encodedEntries o m) true
        (byteswap (UInt32.ofNat m.length))).map Prod.fst := by
  have hendian : @machineEndian ⟨o⟩ ≠ machineEndian :=
    fun heq => ho (machineEndian_eq_iff.mp heq.symm)
  have hbytes : @serialize ⟨o⟩ m =
      [1, @machineEndian ⟨o⟩] ++ (image o (UInt32.ofNat m.length) ++ encodedEntries o m) := rfl
  rw [hbytes, deserialize_bytes (image_length o _), ofImage_image_of_ne ho]
  simp only [hendian, ne_eq, not_false_eq_true, decide_true]

/-- The decoder of a machine of the other byte order finds the map again exactly if every count and
every length in it is one that survives. -/
theorem portable_iff (ho : Machine.order ≠ o) {m : Map} (hwf : (Value.map m).wellFormed)
    (hnd : (Value.map m).noDouble) :
    (∃ m', deserialize (@serialize ⟨o⟩ m) = .ok m' ∧ (Value.map m).same (.map m')) ↔
      (Value.map m).portable true := by
  have hwfs := hwf
  simp only [Value.wellFormed, Bool.and_eq_true, decide_eq_true_eq] at hwfs
  rw [Value.wellFormedEntries_iff] at hwfs
  have hnds := Value.noDoubleEntries_iff.mp hnd
  rw [deserialize_foreign ho]
  constructor
  · rintro ⟨m', hread, hsame⟩
    obtain ⟨⟨res, size⟩, hmap, rfl⟩ := map_eq_ok hread
    rw [← List.append_nil (encodedEntries o m)] at hmap
    obtain ⟨hport, _⟩ | ⟨_, hport⟩ := tells_map ho hwf hnd
      (fun e he => tells ho e.2 (hwfs.2 e he).2 (hnds e he) _) hmap hsame
    · exact hport true
    · exact hport rfl
  · intro hport
    have hes : ∀ e ∈ m, ∀ last, e.2.portable last →
        Takes o (_deserialize true ((encodedEntries o m).length + 7)) last e.2 := by
      intro e he
      have hle := length_le_serializeEntries he
      rw [← length_encodedEntries fun d _ => length_encoded (o := o) d.2] at hle
      exact takes_of_portable ho e.2 (hwfs.2 e he).2 (hnds e he) _ (by omega)
    have hend : true = true → ([] : Bytes) = [] := fun _ => rfl
    obtain ⟨size, hmap, _⟩ := takes_map ho hwfs.1.1 (fun e he => (hwfs.2 e he).1) hwfs.1.2 hes hport
      hend
    rw [List.append_nil] at hmap
    exact ⟨m, by rw [hmap]; rfl, Value.same_refl _ hwf⟩

end

section
attribute [local instance] littleEndian

/-- The empty map is read, a map with an array is not. -/
theorem portable_iff_small :
    (∃ m', deserialize (@serialize ⟨.big⟩ []) = .ok m' ∧ (Value.map []).same (.map m')) ∧
      ¬ ∃ m', deserialize (@serialize ⟨.big⟩ [([97], .array [.i16 (-3)])]) = .ok m' ∧
        (Value.map [([97], .array [.i16 (-3)])]).same (.map m') := by
  constructor
  · exact (portable_iff (by decide) (by decide) (by decide)).mpr (by decide)
  · intro hread
    have hport := (portable_iff (by decide) (by decide) (by decide)).mp hread
    exact absurd hport (by decide)

/-- The count 1 of a map with one entry is taken for `2 ^ 24`. -/
theorem not_portable_one :
    (Value.map [([97], .u8 7)]).wellFormed ∧ (Value.map [([97], .u8 7)]).noDouble ∧
      ¬ ∃ m', deserialize (@serialize ⟨.big⟩ [([97], .u8 7)]) = .ok m' ∧
        (Value.map [([97], .u8 7)]).same (.map m') := by
  refine ⟨by decide, by decide, ?_⟩
  rintro ⟨m', hread, _⟩
  have hfails : deserialize (@serialize ⟨.big⟩ [([97], .u8 7)]) = .error .undefined := by rfl
  rw [hfails] at hread
  cases hread

end

end Ambry.Asf
