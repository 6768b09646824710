import Ambry.Asf.RoundTrip

/-!
# What becomes of a Double

The decoder reads a map up to its first Double and takes the last four bytes of
that Double's size and the first four of its payload for the Double itself. When
these are other bits, the map that is read, if any, is another one.
-/

namespace Ambry.Asf

open Foundation

/-- `bits` is the Double that is written first. -/
inductive FirstDouble (bits : UInt64) : Value → Prop
  | double : FirstDouble bits (.double bits)
  | array {pre post : List Value} {v : Value} (hpre : ∀ u ∈ pre, u.noDouble)
      (hv : FirstDouble bits v) : FirstDouble bits (.array (pre ++ v :: post))
  | map {pre post : Map} {key : Bytes} {v : Value} (hpre : ∀ e ∈ pre, e.2.noDouble)
      (hv : FirstDouble bits v) : FirstDouble bits (.map (pre ++ (key, v) :: post))

theorem exists_first {α : Type} {p : α → Bool} {xs : List α} (h : ¬ ∀ x ∈ xs, p x) :
    ∃ pre x post, xs = pre ++ x :: post ∧ (∀ y ∈ pre, p y) ∧ ¬ p x := by
  induction xs with
  | nil => exact absurd (fun x hx => absurd hx List.not_mem_nil) h
  | cons x xs ih =>
    by_cases hx : p x
    · obtain ⟨pre, y, post, rfl, hpre, hy⟩ := ih fun hxs => h (List.forall_mem_cons.mpr ⟨hx, hxs⟩)
      exact ⟨x :: pre, y, post, rfl, List.forall_mem_cons.mpr ⟨hx, hpre⟩, hy⟩
    · exact ⟨[], x, xs, rfl, fun y hy => absurd hy List.not_mem_nil, hx⟩

theorem exists_firstDouble {v : Value} (h : ¬ v.noDouble) : ∃ bits, FirstDouble bits v := by
  induction v using Value.nestedInduction with
  | double bits => exact ⟨bits, .double⟩
  | array vs ih =>
    rw [Value.noDouble, Value.noDoubleElems_iff] at h
    obtain ⟨pre, v, post, rfl, hpre, hv⟩ := exists_first h
    obtain ⟨bits, hbits⟩ := ih v (List.mem_append_right _ List.mem_cons_self) hv
    exact ⟨bits, .array hpre hbits⟩
  | map es ih =>
    rw [Value.noDouble, Value.noDoubleEntries_iff] at h
    obtain ⟨pre, ⟨key, v⟩, post, rfl, hpre, hv⟩ := exists_first (p := fun e : Bytes × Value => e.2.noDouble) h
    obtain ⟨bits, hbits⟩ := ih (key, v) (List.mem_append_right _ List.mem_cons_self) hv
    exact ⟨bits, .map hpre hbits⟩
  | _ n => exact absurd rfl h

section
variable [Machine]

def misread (bits : UInt64) : UInt64 :=
  ofImage Machine.order (((writeTo (8 : UInt64) ++ writeTo bits).drop 4).take 8)

theorem readTo_of_le {T : Type} [Scalar T] {buff : Bytes} (h : Scalar.width T ≤ buff.length) :
    readTo T buff false = .ok (ofImage Machine.order (buff.take (Scalar.width T))) := by
  rw [readTo, if_pos (List.length_take_of_le h), if_neg Bool.false_ne_true]

theorem _deserialize_double (depth : Nat) (bits : UInt64) (rest : Bytes) :
    _deserialize false (depth + 1) (_serialize (.double bits) ++ rest) =
      .ok (.double (misread bits), 8) := by
  have hlen : (writeTo (8 : UInt64) ++ writeTo bits).length = 16 := by
    rw [List.length_append, writeTo_length, writeTo_length]
    rfl
  have hwindow : ((writeTo (8 : UInt64) ++ writeTo bits ++ rest).drop 4).take 8 =
      ((writeTo (8 : UInt64) ++ writeTo bits).drop 4).take 8 := by
    rw [List.drop_append_of_le_length (by omega), List.take_append_of_le_length]
    rw [List.length_drop]
    omega
  have hall : (writeTo (8 : UInt64) ++ writeTo bits ++ rest).length = 16 + rest.length := by
    rw [List.length_append, hlen]
  generalize hbuff : writeTo (8 : UInt64) ++ writeTo bits ++ rest = buff at hwindow hall
  have hsubstr : substr (8 :: buff) VALUE_HEADER_SIZE = .ok (buff.drop 4) := by
    rw [substr, if_pos]
    · rfl
    · rw [List.length_cons, VALUE_HEADER_SIZE]
      omega
  have hwrite : _serialize (.double bits) ++ rest = 8 :: buff := by
    rw [_serialize, writeTo_byte, integralCase, List.append_assoc, hbuff]
    rfl
  have hdouble : readTo UInt64 (buff.drop 4) false = .ok (misread bits) := by
    rw [readTo_of_le]
    · rw [misread, ← hwindow]
      rfl
    · rw [List.length_drop, hall]
      exact (by omega : 8 ≤ 16 + rest.length - 4)
  have hsize : readTo UInt32 buff false = .ok (ofImage Machine.order (buff.take 4)) :=
    readTo_of_le (by rw [hall]; exact (by omega : 4 ≤ 16 + rest.length))
  rw [hwrite, _deserialize]
  simp only [byteAt, List.getElem?_cons_zero, List.drop_succ_cons, List.drop_zero, hsize, hsubstr,
    bind, Except.bind, deserializeTyped, readIntegral, hdouble]
  rfl

/-- The decoder, if it reads the value at all, reads another one. -/
def Misreads (dec : Bytes → Outcome (Value × Nat)) (v : Value) : Prop :=
  ∀ rest w n, dec (_serialize v ++ rest) = .ok (w, n) → ¬ v.same w

theorem Misreads.array {depth : Nat} {pre post : List Value} {v : Value}
    (hlen : (pre ++ v :: post).length < 2 ^ 31)
    (hpre : ∀ u ∈ pre, Reads (_deserialize false depth) u)
    (hv : Misreads (_deserialize false depth) v) :
    Misreads (_deserialize false (depth + 1)) (.array (pre ++ v :: post)) := by
  rintro rest w n h hsame
  have hcount : (UInt32.ofNat (pre ++ v :: post).length).toNat = pre.length + (post.length + 1) := by
    rw [UInt32.toNat_ofNat', Nat.mod_eq_of_lt (by omega), List.length_append, List.length_cons]
  rw [_serialize, List.append_assoc, List.append_assoc, _deserialize_header] at h
  obtain ⟨⟨elems, size⟩, hloop, h⟩ := bind_eq_ok h
  cases h
  have hskip := deserializeElems_append (serializeElems (v :: post) ++ rest) (post.length + 1) hpre
    [] 0 [] (by rw [List.length_append, List.length_cons] at hlen; omega)
  rw [deserializeArray, hcount, serializeElems_append, List.append_assoc] at hloop
  rw [List.nil_append, List.nil_append] at hskip
  rw [List.length_nil] at hskip
  rw [hskip] at hloop
  obtain ⟨ahead, hahead, hloop⟩ := bind_eq_ok hloop
  rw [Nat.zero_add, substr_append rfl] at hahead
  cases hahead
  rw [serializeElems, List.append_assoc] at hloop
  obtain ⟨⟨w, size'⟩, hw, hloop⟩ := bind_eq_ok hloop
  obtain ⟨j, _, hloop⟩ := bind_eq_ok hloop
  obtain ⟨more, rfl⟩ := deserializeElems_prefix hloop
  rw [Value.same, List.append_assoc] at hsame
  exact hv _ w size' hw (Value.sameElems_middle rfl hsame)

/-- The map loop comes to the entry and keeps what it reads there. -/
theorem deserializeMap_misreads {depth : Nat} {pre post res : Map} {key : Bytes} {v : Value}
    {rest : Bytes} {size : Nat} (hwf : (Value.map (pre ++ (key, v) :: post)).wellFormed)
    (hpre : ∀ e ∈ pre, e.2.noDouble)
    (hdepth : (serializeEntries (pre ++ (key, v) :: post)).length < depth)
    (hv : Misreads (_deserialize false depth) v)
    (h : deserializeMap (_deserialize false depth)
      (serializeEntries (pre ++ (key, v) :: post) ++ rest) false
      (UInt32.ofNat (pre ++ (key, v) :: post).length) = .ok (res, size)) :
    ¬ Value.same (.map (pre ++ (key, v) :: post)) (.map res) := by
  simp only [Value.wellFormed, Bool.and_eq_true, decide_eq_true_eq] at hwf
  obtain ⟨⟨hlen, hnodup⟩, hentries⟩ := hwf
  rw [Value.wellFormedEntries_iff] at hentries
  have hreads : ∀ e ∈ pre, Reads (_deserialize false depth) e.2 := by
    intro e he
    have he' := List.mem_append_left ((key, v) :: post) he
    have hle := length_le_serializeEntries he'
    exact reads_of_noDouble e.2 (hentries e he').2 (hpre e he) depth (hle.trans_lt hdepth)
  rintro hsame
  have hcount : (UInt32.ofNat (pre ++ (key, v) :: post).length).toNat =
      pre.length + (post.length + 1) := by
    rw [UInt32.toNat_ofNat', Nat.mod_eq_of_lt (by omega), List.length_append, List.length_cons]
  have hmem : (key, v) ∈ pre ++ (key, v) :: post := List.mem_append_right _ List.mem_cons_self
  rw [List.map_append, List.map_cons] at hnodup
  obtain ⟨hnodupPre, _, hdisjoint⟩ := List.nodup_append.mp hnodup
  have habsent : key ∉ pre.map Prod.fst :=
    fun hkey => hdisjoint key hkey key List.mem_cons_self rfl
  have hskip := deserializeEntries_append (serializeEntries ((key, v) :: post) ++ rest)
    (post.length + 1) hreads (fun e he => (hentries e (List.mem_append_left _ he)).1) [] 0 []
    (by rw [List.length_append, List.length_cons] at hlen; omega) hnodupPre
  rw [deserializeMap, hcount, serializeEntries_append, List.append_assoc] at h
  rw [List.nil_append, List.nil_append] at hskip
  rw [List.length_nil, Nat.zero_add, Nat.zero_add] at hskip
  rw [hskip, serializeEntries, List.append_assoc,
    deserializeEntries_entry _ (hentries _ hmem).1] at h
  obtain ⟨⟨w, size'⟩, hw, h⟩ := bind_eq_ok h
  obtain ⟨j, _, h⟩ := bind_eq_ok h
  obtain ⟨more, rfl⟩ := deserializeEntries_prefix h
  rw [emplace, if_neg habsent, Value.same, Bool.and_eq_true] at hsame
  obtain ⟨u, hu, hvu⟩ := Value.sameEntries_iff.mp hsame.2 (key, v) hmem
  have hfound : (pre ++ [(key, w)] ++ more).lookup key = some w := by
    refine List.lookup_eq_some_iff.mpr ⟨pre, more, by simp, fun e he => ?_⟩
    have hne : e.1 ≠ key := fun heq => habsent (heq ▸ List.mem_map_of_mem he)
    simpa using hne.symm
  obtain rfl : w = u := Option.some.inj (hfound.symm.trans hu)
  exact hv _ w size' hw hvu

omit [Machine] in
theorem wellFormed_of_mem {es : Map} (hwf : (Value.map es).wellFormed) {e : Bytes × Value}
    (he : e ∈ es) : e.2.wellFormed := by
  simp only [Value.wellFormed, Bool.and_eq_true] at hwf
  exact (Value.wellFormedEntries_iff.mp hwf.2 e he).2

theorem FirstDouble.misreads {v : Value} {bits : UInt64} (hbits : misread bits ≠ bits)
    (h : FirstDouble bits v) (hwf : v.wellFormed) :
    ∀ depth, (_serialize v).length < depth → Misreads (_deserialize false depth) v := by
  induction h with
  | double =>
    rintro (_ | depth) hdepth rest w n hread hsame
    · cases hdepth
    · rw [_deserialize_double] at hread
      cases hread
      rw [Value.same, decide_eq_true_eq] at hsame
      exact hbits hsame.symm
  | @array pre post v hpre hv ih =>
    rintro (_ | depth) hdepth
    · cases hdepth
    simp only [Value.wellFormed, Bool.and_eq_true, decide_eq_true_eq] at hwf
    rw [Value.wellFormedElems_iff] at hwf
    have hshort : ∀ u ∈ pre ++ v :: post, (_serialize u).length < depth := by
      intro u hu
      have hle := length_le_serializeElems hu
      rw [length_serialize_array] at hdepth
      omega
    have hmem : v ∈ pre ++ v :: post := List.mem_append_right _ List.mem_cons_self
    refine .array hwf.1 (fun u hu => ?_) (ih (hwf.2 v hmem) depth (hshort v hmem))
    have hu' := List.mem_append_left (v :: post) hu
    exact reads_of_noDouble u (hwf.2 u hu') (hpre u hu) depth (hshort u hu')
  | @map pre post key v hpre hv ih =>
    rintro (_ | depth) hdepth rest w n hread
    · cases hdepth
    have hmem : (key, v) ∈ pre ++ (key, v) :: post := List.mem_append_right _ List.mem_cons_self
    have hle : (_serialize v).length ≤ _ := length_le_serializeEntries hmem
    rw [length_serialize_map] at hdepth
    rw [_serialize, List.append_assoc, List.append_assoc, _deserialize_header] at hread
    obtain ⟨⟨res, size⟩, hmap, hread⟩ := bind_eq_ok hread
    cases hread
    exact deserializeMap_misreads hwf hpre (by omega)
      (ih (wellFormed_of_mem hwf hmem) depth (by omega)) hmap

def RoundTrips (m : Map) : Prop :=
  ∃ m', deserialize (serialize m) = .ok m' ∧ (Value.map m).same (.map m')

theorem FirstDouble.not_roundTrips {m : Map} {bits : UInt64} (h : FirstDouble bits (.map m))
    (hbits : misread bits ≠ bits) (hwf : (Value.map m).wellFormed) : ¬ RoundTrips m := by
  rintro ⟨m', hread, hsame⟩
  obtain _ | _ | ⟨hpre, hv⟩ := h
  rename_i pre post key v
  have hmem : (key, v) ∈ pre ++ (key, v) :: post := List.mem_append_right _ List.mem_cons_self
  have hle : (_serialize v).length ≤ _ := length_le_serializeEntries hmem
  rw [serialize, serializeMap, deserialize_header] at hread
  obtain ⟨⟨res, size⟩, hmap, hread⟩ := map_eq_ok hread
  cases hread
  generalize hdepth : (serializeEntries (pre ++ (key, v) :: post)).length + 7 = depth at hmap
  rw [← List.append_nil (serializeEntries _)] at hmap
  exact deserializeMap_misreads hwf hpre (by omega)
    (hv.misreads hbits (wellFormed_of_mem hwf hmem) depth (by omega)) hmap hsame

/-- A map without a Double comes back. A map with a Double comes back only if the Double that is
written first is read as itself. -/
theorem roundTrips_of_noDouble {m : Map} (hwf : (Value.map m).wellFormed) :
    ((Value.map m).noDouble → RoundTrips m) ∧
      (RoundTrips m → (Value.map m).noDouble ∨
        ∃ bits, FirstDouble bits (.map m) ∧ misread bits = bits) := by
  constructor
  · intro hnd
    exact ⟨m, deserialize_serialize hwf hnd, Value.same_refl _ hwf⟩
  · intro hround
    by_cases hnd : (Value.map m).noDouble
    · exact .inl hnd
    · obtain ⟨bits, hfirst⟩ := exists_firstDouble hnd
      refine .inr ⟨bits, hfirst, ?_⟩
      by_contra hbits
      exact hfirst.not_roundTrips hbits hwf hround

end

section
attribute [local instance] littleEndian

/-- Of a Double the decoder keeps the low half, as the high one. -/
theorem misread_littleEndian (bits : UInt64) :
    (misread bits).toNat = 2 ^ 32 * (bits.toNat % 2 ^ 32) := by
  have hsize : writeTo (8 : UInt64) = [8, 0, 0, 0, 0, 0, 0, 0] := by decide
  have hbits : (writeTo bits).take 4 = leBytes 4 bits.toNat := rfl
  have hwindow : ((writeTo (8 : UInt64) ++ writeTo bits).drop 4).take 8 =
      [0, 0, 0, 0] ++ leBytes 4 bits.toNat := by
    rw [hsize, ← hbits]
    rfl
  have hvalue : leValue ([0, 0, 0, 0] ++ leBytes 4 bits.toNat) =
      2 ^ 32 * leValue (leBytes 4 bits.toNat) := by
    simp only [List.cons_append, List.nil_append, leValue, UInt8.toNat_zero]
    omega
  have hlow : leValue (leBytes 4 bits.toNat) < 2 ^ 32 := by
    rw [leValue_leBytes]
    exact Nat.mod_lt _ (by decide)
  rw [misread, hwindow]
  show (UInt64.ofNat (leValue ([0, 0, 0, 0] ++ leBytes 4 bits.toNat))).toNat = _
  rw [hvalue, UInt64.toNat_ofNat', Nat.mod_eq_of_lt (by omega), leValue_leBytes]
  rfl

theorem misread_eq_self_iff {bits : UInt64} : misread bits = bits ↔ bits = 0 := by
  rw [← UInt64.toNat_inj, ← UInt64.toNat_inj, misread_littleEndian, UInt64.toNat_zero]
  have hlt := bits.toNat_lt
  omega

theorem roundTrips_of_noDouble_nested :
    RoundTrips [([97], .array [.i8 (-3), .map [([], .string [104, 105])]]), ([98], .u64 7)] :=
  (roundTrips_of_noDouble (by decide)).1 (by decide)

theorem not_roundTrips_one :
    (Value.map [([97], .double 0x3FF0000000000000)]).wellFormed ∧
      ¬ RoundTrips [([97], .double 0x3FF0000000000000)] := by
  refine ⟨by decide, ?_⟩
  rintro ⟨m', hread, hsame⟩
  have hzero : deserialize (serialize [([97], .double 0x3FF0000000000000)]) =
      .ok [([97], .double 0)] := by rfl
  rw [hzero] at hread
  cases hread
  exact absurd hsame (by decide)

end

end Ambry.Asf
