import Ambry.Asf.Deserialize

/-!
# Reading what was written

The decoder takes off the buffer exactly what the encoder wrote, for every value
without a Double. The header of a Double is four bytes longer than the decoder
takes it to be, so the decoder reads other bytes in its place.
-/

namespace Ambry.Asf

open Foundation

section
variable [Machine]

theorem readTo_bytes {T : Type} [Scalar T] {bs : Bytes} (hlen : bs.length = Scalar.width T)
    (rest : Bytes) (shouldReverse : Bool) :
    readTo T (bs ++ rest) shouldReverse =
      .ok (ofImage Machine.order (if shouldReverse then bs.reverse else bs)) := by
  rw [readTo, List.take_left' hlen, if_pos hlen]

theorem readTo_writeTo {T : Type} [Scalar T] (n : T) (rest : Bytes) :
    readTo T (writeTo n ++ rest) false = .ok n := by
  rw [readTo_bytes (writeTo_length n), if_neg Bool.false_ne_true, writeTo, ofImage_image]

omit [Machine] in
theorem substr_append {pre rest : Bytes} {n : Nat} (hn : pre.length = n) :
    substr (pre ++ rest) n = .ok rest := by
  rw [substr, if_pos (by rw [List.length_append]; omega), List.drop_left' hn]

theorem writeTo_byte (type : UInt8) : writeTo type = [type] := by
  have hbyte : leBytes 1 type.toNat = [type] := by
    rw [leBytes, UInt8.ofNat_toNat]
    rfl
  rw [writeTo, image]
  cases Machine.order
  · exact congrArg List.reverse hbyte
  · exact hbyte

/-- The length behind the type byte is read as the bytes stand. -/
theorem _deserialize_cons {bs : Bytes} (hbs : bs.length = 4) (shouldReverse : Bool) (depth : Nat)
    (type : UInt8) (body : Bytes) :
    _deserialize shouldReverse (depth + 1) (type :: (bs ++ body)) =
      deserializeTyped (_deserialize shouldReverse depth) shouldReverse type
        (ofImage Machine.order bs) body := by
  have hbody : substr (type :: (bs ++ body)) VALUE_HEADER_SIZE = .ok body := by
    have hheader : (type :: bs).length = VALUE_HEADER_SIZE := by
      rw [List.length_cons, hbs]
      rfl
    exact substr_append hheader
  have hlen : readTo UInt32 (bs ++ body) false = .ok (ofImage Machine.order bs) :=
    readTo_bytes hbs body false
  rw [_deserialize]
  simp only [byteAt, List.getElem?_cons_zero, List.drop_succ_cons, List.drop_zero, hlen, hbody,
    bind, Except.bind]

theorem _deserialize_header (shouldReverse : Bool) (depth : Nat) (type : UInt8) (len : UInt32)
    (body : Bytes) :
    _deserialize shouldReverse (depth + 1) (writeTo type ++ (writeTo len ++ body)) =
      deserializeTyped (_deserialize shouldReverse depth) shouldReverse type len body := by
  have hlen : ofImage Machine.order (writeTo len) = len := ofImage_image _ len
  rw [writeTo_byte, List.singleton_append, _deserialize_cons (writeTo_length len), hlen]

theorem deserialize_integral {T : Type} [Scalar T] (mk : T → Value) (type : UInt8) (size : Int32)
    (n : T) (htype : ∀ dec len body, deserializeTyped dec false type len body =
      readIntegral mk body false) (depth : Nat) (rest : Bytes) :
    _deserialize false (depth + 1) (writeTo type ++ integralCase size n ++ rest) =
      .ok (mk n, (writeTo type ++ integralCase size n).length - VALUE_HEADER_SIZE) := by
  have hsize : writeTo size = writeTo size.toUInt32 := rfl
  have hlen : (writeTo type ++ integralCase size n).length - VALUE_HEADER_SIZE = Scalar.width T := by
    simp only [integralCase, List.length_append, writeTo_length]
    show 1 + (4 + Scalar.width T) - 5 = Scalar.width T
    omega
  rw [hlen, integralCase, hsize]
  simp only [List.append_assoc]
  rw [_deserialize_header, htype, readIntegral, readTo_writeTo]
  rfl

theorem header_add_size (v : Value) :
    VALUE_HEADER_SIZE + ((_serialize v).length - VALUE_HEADER_SIZE) = (_serialize v).length :=
  Nat.add_sub_cancel' (five_le_length v)

omit [Machine] in
theorem increment_eq {i : Nat} (h : i + 1 < 2 ^ 31) : increment i = .ok (i + 1) := if_pos h

/-- The decoder reads a value off the front of any buffer. -/
def Reads (dec : Bytes → Outcome (Value × Nat)) (v : Value) : Prop :=
  ∀ rest, dec (_serialize v ++ rest) = .ok (v, (_serialize v).length - VALUE_HEADER_SIZE)

theorem deserializeElems_append {dec : Bytes → Outcome (Value × Nat)} (rest : Bytes) (m : Nat)
    {vs : List Value} (hdec : ∀ v ∈ vs, Reads dec v) (pre : Bytes) (i : Nat) (out : List Value)
    (hi : i + vs.length < 2 ^ 31) :
    deserializeElems dec (pre ++ (serializeElems vs ++ rest)) (vs.length + m) i pre.length out =
      deserializeElems dec (pre ++ (serializeElems vs ++ rest)) m (i + vs.length)
        (pre.length + (serializeElems vs).length) (out ++ vs) := by
  induction vs generalizing pre i out with
  | nil => simp [serializeElems]
  | cons v vs ih =>
    have hv := hdec v List.mem_cons_self
    rw [List.length_cons] at hi
    have hcount : (v :: vs).length + m = vs.length + m + 1 := by
      rw [List.length_cons]
      omega
    have hnext := ih (fun w hw => hdec w (List.mem_cons_of_mem v hw)) (pre ++ _serialize v) (i + 1)
      (out ++ [v]) (by omega)
    rw [hcount, deserializeElems, substr_append rfl, serializeElems]
    simp only [List.append_assoc, List.length_append] at hnext ⊢
    simp only [bind, Except.bind, hv _, header_add_size, increment_eq (show i + 1 < 2 ^ 31 by omega)]
    rw [hnext, List.length_cons, List.singleton_append, Nat.add_assoc i, Nat.add_comm 1]
    rw [Nat.add_assoc pre.length]

/-- One turn of the map loop, for any bytes from which the length of the key is read. -/
theorem deserializeEntries_turn (dec : Bytes → Outcome (Value × Nat)) {shouldReverse : Bool}
    {bs key : Bytes} (hbs : bs.length = 2) (hkey : key.length < 2 ^ 16)
    (hread : ∀ rest, readTo UInt16 (bs ++ rest) shouldReverse = .ok (UInt16.ofNat key.length))
    (pre value : Bytes) (n i : Nat) (out : Map) :
    deserializeEntries dec shouldReverse (pre ++ (bs ++ (key ++ value))) (n + 1) i pre.length out =
      (dec value >>= fun r => increment i >>= fun i =>
        deserializeEntries dec shouldReverse (pre ++ (bs ++ (key ++ value))) n i
          (pre.length + (2 + key.length) + (VALUE_HEADER_SIZE + r.2)) (emplace out key r.1)) := by
  have hkeyLen : (UInt16.ofNat key.length).toNat = key.length := by
    rw [UInt16.toNat_ofNat', Nat.mod_eq_of_lt hkey]
  have hrest : substr (pre ++ (bs ++ (key ++ value))) (pre.length + 2) = .ok (key ++ value) := by
    rw [← List.append_assoc]
    exact substr_append (by rw [List.length_append, hbs])
  have hvalue : substr (pre ++ (bs ++ (key ++ value))) (pre.length + (2 + key.length)) =
      .ok value := by
    rw [← List.append_assoc, ← List.append_assoc]
    exact substr_append (by rw [List.length_append, List.length_append, hbs, Nat.add_assoc])
  rw [deserializeEntries, substr_append rfl]
  simp only [bind, Except.bind, hread, hrest, hkeyLen, List.take_left' rfl, hvalue]

theorem deserializeEntries_entry (dec : Bytes → Outcome (Value × Nat)) {key : Bytes}
    (hkey : key.length < 2 ^ 16) (v : Value) (pre tail : Bytes) (n i : Nat) (out : Map) :
    deserializeEntries dec false (pre ++ (serializeEntry (key, v) ++ tail)) (n + 1) i pre.length
        out =
      (dec (_serialize v ++ tail) >>= fun r => increment i >>= fun i =>
        deserializeEntries dec false (pre ++ (serializeEntry (key, v) ++ tail)) n i
          (pre.length + (2 + key.length) + (VALUE_HEADER_SIZE + r.2)) (emplace out key r.1)) := by
  have hentry : serializeEntry (key, v) ++ tail =
      writeTo (UInt16.ofNat key.length) ++ (key ++ (_serialize v ++ tail)) := by
    rw [serializeEntry, List.append_assoc, List.append_assoc]
  rw [hentry]
  exact deserializeEntries_turn dec (writeTo_length _) hkey (readTo_writeTo _) pre _ n i out

/-- The map loop over entries that it reads, with `m` more iterations to go. -/
theorem deserializeEntries_append {dec : Bytes → Outcome (Value × Nat)} (rest : Bytes) (m : Nat)
    {es : Map} (hdec : ∀ e ∈ es, Reads dec e.2) (hkeys : ∀ e ∈ es, e.1.length < 2 ^ 16)
    (pre : Bytes) (i : Nat) (out : Map) (hi : i + es.length < 2 ^ 31)
    (hnodup : ((out ++ es).map Prod.fst).Nodup) :
    deserializeEntries dec false (pre ++ (serializeEntries es ++ rest)) (es.length + m) i pre.length
        out =
      deserializeEntries dec false (pre ++ (serializeEntries es ++ rest)) m (i + es.length)
        (pre.length + (serializeEntries es).length) (out ++ es) := by
  induction es generalizing pre i out with
  | nil => simp [serializeEntries]
  | cons e es ih =>
    obtain ⟨key, v⟩ := e
    have hv := hdec (key, v) List.mem_cons_self
    have habsent : key ∉ out.map Prod.fst := by
      rw [List.map_append, List.map_cons] at hnodup
      exact fun hmem => (List.nodup_append.mp hnodup).2.2 _ hmem _ List.mem_cons_self rfl
    rw [List.length_cons] at hi
    have hnodup' : ((out ++ [(key, v)] ++ es).map Prod.fst).Nodup := by
      rw [List.append_assoc]
      exact hnodup
    have hlength : (serializeEntry (key, v)).length = 2 + key.length + (_serialize v).length := by
      exact length_serializeEntry (key, v)
    have hnext := ih (fun w hw => hdec w (List.mem_cons_of_mem _ hw))
      (fun w hw => hkeys w (List.mem_cons_of_mem _ hw)) (pre ++ serializeEntry (key, v)) (i + 1)
      (out ++ [(key, v)]) (by omega) hnodup'
    rw [List.length_append, hlength, List.append_assoc, List.append_assoc] at hnext
    rw [List.length_cons, Nat.add_right_comm, serializeEntries, List.append_assoc,
      deserializeEntries_entry dec (hkeys (key, v) List.mem_cons_self)]
    simp only [bind, Except.bind, hv _, header_add_size,
      increment_eq (show i + 1 < 2 ^ 31 by omega), emplace, if_neg habsent]
    rw [Nat.add_assoc pre.length, hnext, List.length_append, hlength, List.singleton_append,
      Nat.add_assoc i, Nat.add_comm 1, Nat.add_assoc pre.length]

theorem Reads.string {s : Bytes} (hlen : s.length < 2 ^ 31) (depth : Nat) :
    Reads (_deserialize false (depth + 1)) (.string s) := by
  intro rest
  have hlen' : (UInt32.ofNat s.length).toNat = s.length := by
    rw [UInt32.toNat_ofNat', Nat.mod_eq_of_lt (by omega)]
  have hsize : (_serialize (.string s)).length - VALUE_HEADER_SIZE = s.length := by
    rw [length_serialize_string]
    exact Nat.add_sub_cancel_left _ _
  rw [hsize, _serialize, serializeString, List.append_assoc, List.append_assoc, _deserialize_header]
  simp only [deserializeTyped, hlen', List.take_left' rfl]

theorem deserializeArray_serialize {dec : Bytes → Outcome (Value × Nat)} {vs : List Value}
    (hlen : vs.length < 2 ^ 31) (hvs : ∀ v ∈ vs, Reads dec v) (rest : Bytes) :
    deserializeArray dec (serializeElems vs ++ rest) (UInt32.ofNat vs.length) =
      .ok (vs, (serializeElems vs).length) := by
  have hlen' : (UInt32.ofNat vs.length).toNat = vs.length := by
    rw [UInt32.toNat_ofNat', Nat.mod_eq_of_lt (by omega)]
  have hloop := deserializeElems_append rest 0 hvs [] 0 [] (by omega)
  simp only [List.nil_append, Nat.add_zero, List.length_nil] at hloop
  rw [deserializeArray, hlen', hloop, deserializeElems, Nat.zero_add]

theorem Reads.array {depth : Nat} {vs : List Value} (hlen : vs.length < 2 ^ 31)
    (hvs : ∀ v ∈ vs, Reads (_deserialize false depth) v) :
    Reads (_deserialize false (depth + 1)) (.array vs) := by
  intro rest
  have hsize : (_serialize (.array vs)).length - VALUE_HEADER_SIZE = (serializeElems vs).length := by
    rw [length_serialize_array]
    exact Nat.add_sub_cancel_left _ _
  rw [hsize, _serialize, List.append_assoc, List.append_assoc, _deserialize_header]
  simp only [deserializeTyped, deserializeArray_serialize hlen hvs, bind, Except.bind]
  rfl

theorem deserializeMap_serialize {dec : Bytes → Outcome (Value × Nat)} {es : Map}
    (hlen : es.length < 2 ^ 31) (hkeys : ∀ e ∈ es, e.1.length < 2 ^ 16)
    (hnodup : (es.map Prod.fst).Nodup) (hes : ∀ e ∈ es, Reads dec e.2) (rest : Bytes) :
    deserializeMap dec (serializeEntries es ++ rest) false (UInt32.ofNat es.length) =
      .ok (es, (serializeEntries es).length) := by
  have hlen' : (UInt32.ofNat es.length).toNat = es.length := by
    rw [UInt32.toNat_ofNat', Nat.mod_eq_of_lt (by omega)]
  have hloop := deserializeEntries_append rest 0 hes hkeys [] 0 [] (by omega) hnodup
  simp only [List.nil_append, Nat.add_zero, List.length_nil] at hloop
  rw [deserializeMap, hlen', hloop, deserializeEntries, Nat.zero_add]

theorem Reads.map {depth : Nat} {es : Map} (hlen : es.length < 2 ^ 31)
    (hkeys : ∀ e ∈ es, e.1.length < 2 ^ 16) (hnodup : (es.map Prod.fst).Nodup)
    (hes : ∀ e ∈ es, Reads (_deserialize false depth) e.2) :
    Reads (_deserialize false (depth + 1)) (.map es) := by
  intro rest
  have hsize : (_serialize (.map es)).length - VALUE_HEADER_SIZE = (serializeEntries es).length := by
    rw [length_serialize_map]
    exact Nat.add_sub_cancel_left _ _
  rw [hsize, _serialize, List.append_assoc, List.append_assoc, _deserialize_header]
  simp only [deserializeTyped, deserializeMap_serialize hlen hkeys hnodup hes, bind, Except.bind]
  rfl

/-- Every value without a Double is read back, whatever follows it. -/
theorem reads_of_noDouble (v : Value) (hwf : v.wellFormed) (hnd : v.noDouble) :
    ∀ depth, (_serialize v).length < depth → Reads (_deserialize false depth) v := by
  induction v using Value.nestedInduction with
  | double bits => cases hnd
  | string s =>
    rintro (_ | depth) hdepth
    · cases hdepth
    · simp only [Value.wellFormed, decide_eq_true_eq] at hwf
      exact .string hwf depth
  | array vs ih =>
    rintro (_ | depth) hdepth
    · cases hdepth
    simp only [Value.wellFormed, Bool.and_eq_true, decide_eq_true_eq] at hwf
    rw [Value.wellFormedElems_iff] at hwf
    rw [Value.noDouble, Value.noDoubleElems_iff] at hnd
    refine .array hwf.1 fun v hv => ih v hv (hwf.2 v hv) (hnd v hv) depth ?_
    have hle := length_le_serializeElems hv
    rw [length_serialize_array] at hdepth
    omega
  | map es ih =>
    rintro (_ | depth) hdepth
    · cases hdepth
    simp only [Value.wellFormed, Bool.and_eq_true, decide_eq_true_eq] at hwf
    rw [Value.wellFormedEntries_iff] at hwf
    rw [Value.noDouble, Value.noDoubleEntries_iff] at hnd
    refine .map hwf.1.1 (fun e he => (hwf.2 e he).1) hwf.1.2
      fun e he => ih e he (hwf.2 e he).2 (hnd e he) depth ?_
    have hle := length_le_serializeEntries he
    rw [length_serialize_map] at hdepth
    omega
  | _ n =>
    rintro (_ | depth) hdepth rest
    · cases hdepth
    · rw [_serialize]
      exact deserialize_integral _ _ _ n (fun _ _ _ => rfl) depth rest

theorem reads_elems {vs : List Value} (hwf : (Value.array vs).wellFormed)
    (hnd : (Value.array vs).noDouble) {depth : Nat} (hdepth : (serializeElems vs).length < depth) :
    ∀ v ∈ vs, Reads (_deserialize false depth) v := by
  simp only [Value.wellFormed, Bool.and_eq_true, decide_eq_true_eq] at hwf
  rw [Value.wellFormedElems_iff] at hwf
  rw [Value.noDouble, Value.noDoubleElems_iff] at hnd
  intro v hv
  have hle := length_le_serializeElems hv
  exact reads_of_noDouble v (hwf.2 v hv) (hnd v hv) depth (hle.trans_lt hdepth)

theorem reads_entries {es : Map} (hwf : (Value.map es).wellFormed) (hnd : (Value.map es).noDouble)
    {depth : Nat} (hdepth : (serializeEntries es).length < depth) :
    ∀ e ∈ es, Reads (_deserialize false depth) e.2 := by
  simp only [Value.wellFormed, Bool.and_eq_true, decide_eq_true_eq] at hwf
  rw [Value.wellFormedEntries_iff] at hwf
  rw [Value.noDouble, Value.noDoubleEntries_iff] at hnd
  intro e he
  have hle := length_le_serializeEntries he
  exact reads_of_noDouble e.2 (hwf.2 e he).2 (hnd e he) depth (hle.trans_lt hdepth)

theorem deserializeArray_elems {vs : List Value} (hwf : (Value.array vs).wellFormed)
    (hnd : (Value.array vs).noDouble) {depth : Nat} (hdepth : (serializeElems vs).length < depth)
    (rest : Bytes) :
    deserializeArray (_deserialize false depth) (serializeElems vs ++ rest)
      (UInt32.ofNat vs.length) = .ok (vs, (serializeElems vs).length) := by
  have hreads := reads_elems hwf hnd hdepth
  simp only [Value.wellFormed, Bool.and_eq_true, decide_eq_true_eq] at hwf
  exact deserializeArray_serialize hwf.1 hreads rest

theorem deserializeMap_entries {es : Map} (hwf : (Value.map es).wellFormed)
    (hnd : (Value.map es).noDouble) {depth : Nat} (hdepth : (serializeEntries es).length < depth)
    (rest : Bytes) :
    deserializeMap (_deserialize false depth) (serializeEntries es ++ rest) false
      (UInt32.ofNat es.length) = .ok (es, (serializeEntries es).length) := by
  have hreads := reads_entries hwf hnd hdepth
  simp only [Value.wellFormed, Bool.and_eq_true, decide_eq_true_eq] at hwf
  rw [Value.wellFormedEntries_iff] at hwf
  exact deserializeMap_serialize hwf.1.1 (fun e he => (hwf.2 e he).1) hwf.1.2 hreads rest

theorem deserialize_bytes {bs : Bytes} (hbs : bs.length = 4) (endian : UInt8) (body : Bytes) :
    deserialize ([1, endian] ++ (bs ++ body)) =
      (deserializeMap (_deserialize (endian ≠ machineEndian) (body.length + 7)) body
        (endian ≠ machineEndian) (ofImage Machine.order bs)).map Prod.fst := by
  have hlength : ([1, endian] ++ (bs ++ body)).length + 1 = body.length + 7 := by
    rw [List.length_append, List.length_append, hbs]
    simp only [List.length_cons, List.length_nil]
    omega
  have hcheck : deserializeCheck isSingle ([1, endian] ++ (bs ++ body)) = .ok () := by
    rw [deserializeCheck, if_neg]
    rintro (h | h | h)
    · cases h
    · rw [HEADER_SIZE] at h
      omega
    · exact absurd h (by simp [isSingle])
  have hrest : substr ([1, endian] ++ (bs ++ body)) 2 = .ok (bs ++ body) := substr_append rfl
  have hbody : substr ([1, endian] ++ (bs ++ body)) 6 = .ok body := by
    rw [← List.append_assoc]
    exact substr_append (by rw [List.length_append, hbs]; rfl)
  have hendian : byteAt ([1, endian] ++ (bs ++ body)) 1 = .ok endian := rfl
  have hlen : readTo UInt32 (bs ++ body) false = .ok (ofImage Machine.order bs) :=
    readTo_bytes hbs body false
  rw [deserialize]
  simp only [hcheck, hendian, hrest, hbody, hlength, hlen, bind, Except.bind]
  cases deserializeMap (_deserialize (endian ≠ machineEndian) (body.length + 7)) body
    (endian ≠ machineEndian) (ofImage Machine.order bs) <;> rfl

theorem deserialize_header (len : UInt32) (body : Bytes) :
    deserialize ([1, machineEndian] ++ (writeTo len ++ body)) =
      (deserializeMap (_deserialize false (body.length + 7)) body false len).map Prod.fst := by
  have hlen : ofImage Machine.order (writeTo len) = len := ofImage_image _ len
  rw [deserialize_bytes (writeTo_length len), hlen]
  simp only [ne_eq, not_true_eq_false, decide_false]

theorem deserialize_serialize {m : Map} (hwf : (Value.map m).wellFormed)
    (hnd : (Value.map m).noDouble) : deserialize (serialize m) = .ok m := by
  have hmap := deserializeMap_entries hwf hnd
    (by omega : (serializeEntries m).length < (serializeEntries m).length + 7) []
  rw [List.append_nil] at hmap
  rw [serialize, serializeMap, deserialize_header, hmap]
  rfl

end

end Ambry.Asf
