import Ambry.Asf.RoundTrip
import Mathlib.Algebra.Order.BigOperators.Group.List

/-!
# Single values

`deserialize_value` steps over six bytes where `serialize_value` wrote two. What
the decoder reads off a view never serializes to more bytes than the view has,
so a value that lost four bytes of its encoding cannot come back.
-/

namespace Ambry.Asf

open Foundation

section
variable [Machine]

/-- What is read fits into the view and into the bytes that the reader steps over. -/
def Fits (dec : Bytes → Outcome (Value × Nat)) : Prop :=
  ∀ buff w n, dec buff = .ok (w, n) → w.noDouble →
    (_serialize w).length ≤ buff.length ∧ (_serialize w).length ≤ VALUE_HEADER_SIZE + n

/-- What is read has a header. -/
def TakesHeader (dec : Bytes → Outcome (Value × Nat)) : Prop :=
  ∀ buff w n, dec buff = .ok (w, n) → VALUE_HEADER_SIZE ≤ buff.length

omit [Machine] in
theorem substr_eq_ok {buff rest : Bytes} {pos : Nat} (h : substr buff pos = .ok rest) :
    pos ≤ buff.length ∧ rest = buff.drop pos := by
  rw [substr] at h
  split at h
  · cases h
    exact ⟨by assumption, rfl⟩
  · cases h

/-- What the array loop still reads fits behind the offset it has come to. -/
theorem serializeElems_fits {dec : Bytes → Outcome (Value × Nat)} (hdec : Fits dec) {buff : Bytes}
    {n i offset size : Nat} {out more : List Value}
    (h : deserializeElems dec buff n i offset out = .ok (out ++ more, size))
    (hmore : ∀ v ∈ more, v.noDouble) :
    offset + (serializeElems more).length ≤ size ∧
      ((n = 0 → offset ≤ buff.length) → offset + (serializeElems more).length ≤ buff.length) := by
  induction n generalizing i offset out more with
  | zero =>
    obtain ⟨hout, rfl⟩ := Prod.mk.inj (Except.ok.inj h)
    obtain rfl := List.append_right_eq_self.mp hout.symm
    exact ⟨Nat.le_refl _, fun hend => hend rfl⟩
  | succ n ih =>
    obtain ⟨rest, hrest, h⟩ := bind_eq_ok h
    obtain ⟨hpos, rfl⟩ := substr_eq_ok hrest
    obtain ⟨⟨value, size'⟩, hvalue, h⟩ := bind_eq_ok h
    obtain ⟨j, _, h⟩ := bind_eq_ok h
    obtain ⟨later, hlater⟩ := deserializeElems_prefix h
    rw [List.append_assoc] at hlater
    obtain rfl : more = value :: later := List.append_cancel_left hlater
    obtain ⟨hfits, hstep⟩ := hdec _ value size' hvalue (hmore value List.mem_cons_self)
    rw [List.append_cons out value later] at h
    obtain ⟨hsize, hbuff⟩ := ih h fun v hv => hmore v (List.mem_cons_of_mem value hv)
    rw [List.length_drop] at hfits
    rw [serializeElems, List.length_append]
    refine ⟨by omega, fun _ => ?_⟩
    cases n with
    | zero =>
      obtain rfl := List.append_right_eq_self.mp (Prod.mk.inj (Except.ok.inj h)).1.symm
      rw [serializeElems, List.length_nil]
      omega
    | succ n =>
      have hbuff := hbuff fun hzero => absurd hzero (Nat.succ_ne_zero n)
      omega

/-- The same for the map loop. A key that comes again adds nothing and takes seven bytes at least. -/
theorem serializeEntries_fits {dec : Bytes → Outcome (Value × Nat)} (hdec : Fits dec)
    (hheader : TakesHeader dec) {shouldReverse : Bool} {buff : Bytes} {n i offset size : Nat}
    {out more : Map}
    (h : deserializeEntries dec shouldReverse buff n i offset out = .ok (out ++ more, size))
    (hmore : ∀ e ∈ more, e.2.noDouble) :
    more.length ≤ n ∧
      offset + (serializeEntries more).length + 7 * (n - more.length) ≤ size ∧
      ((n = 0 → offset ≤ buff.length) →
        offset + (serializeEntries more).length + 7 * (n - more.length) ≤ buff.length) := by
  induction n generalizing i offset out more with
  | zero =>
    obtain ⟨hout, rfl⟩ := Prod.mk.inj (Except.ok.inj h)
    obtain rfl := List.append_right_eq_self.mp hout.symm
    exact ⟨Nat.le_refl _, Nat.le_refl _, fun hend => hend rfl⟩
  | succ n ih =>
    obtain ⟨_, _, h⟩ := bind_eq_ok h
    obtain ⟨keyLen, _, h⟩ := bind_eq_ok h
    obtain ⟨rest, _, h⟩ := bind_eq_ok h
    obtain ⟨rest', hrest', h⟩ := bind_eq_ok h
    obtain ⟨hpos, rfl⟩ := substr_eq_ok hrest'
    obtain ⟨⟨value, size'⟩, hvalue, h⟩ := bind_eq_ok h
    obtain ⟨j, _, h⟩ := bind_eq_ok h
    have htaken := hheader _ value size' hvalue
    rw [List.length_drop, VALUE_HEADER_SIZE] at htaken
    rw [VALUE_HEADER_SIZE] at h
    by_cases hkey : rest.take keyLen.toNat ∈ out.map Prod.fst
    · rw [emplace, if_pos hkey] at h
      obtain ⟨hcount, hsize, hbuff⟩ := ih h hmore
      refine ⟨by omega, by omega, fun _ => ?_⟩
      cases n with
      | zero =>
        obtain rfl := List.append_right_eq_self.mp (Prod.mk.inj (Except.ok.inj h)).1.symm
        rw [serializeEntries, List.length_nil]
        omega
      | succ n =>
        have hbuff := hbuff fun hzero => absurd hzero (Nat.succ_ne_zero n)
        omega
    · rw [emplace, if_neg hkey] at h
      obtain ⟨later, hlater⟩ := deserializeEntries_prefix h
      rw [List.append_assoc] at hlater
      obtain rfl : more = (rest.take keyLen.toNat, value) :: later := List.append_cancel_left hlater
      obtain ⟨hfits, hstep⟩ := hdec _ value size' hvalue (hmore _ List.mem_cons_self)
      rw [VALUE_HEADER_SIZE] at hstep
      rw [List.append_cons out _ later] at h
      obtain ⟨hcount, hsize, hbuff⟩ := ih h fun e he => hmore e (List.mem_cons_of_mem _ he)
      have hshort := List.length_take_le keyLen.toNat rest
      rw [List.length_drop] at hfits
      have hentry : (serializeEntry (rest.take keyLen.toNat, value)).length =
          2 + (rest.take keyLen.toNat).length + (_serialize value).length := length_serializeEntry _
      rw [serializeEntries, List.length_append, hentry, List.length_cons]
      refine ⟨by omega, by omega, fun _ => ?_⟩
      cases n with
      | zero =>
        obtain rfl := List.append_right_eq_self.mp (Prod.mk.inj (Except.ok.inj h)).1.symm
        rw [serializeEntries, List.length_nil]
        omega
      | succ n =>
        have hbuff := hbuff fun hzero => absurd hzero (Nat.succ_ne_zero n)
        omega

theorem readIntegral_fits {T : Type} [Scalar T] {mk : T → Value} {buff : Bytes}
    {shouldReverse : Bool} {w : Value} {n : Nat}
    (hmk : ∀ x, (mk x).noDouble → (_serialize (mk x)).length = VALUE_HEADER_SIZE + Scalar.width T)
    (h : readIntegral mk buff shouldReverse = .ok (w, n)) (hnd : w.noDouble) :
    (_serialize w).length ≤ VALUE_HEADER_SIZE + buff.length ∧
      (_serialize w).length ≤ VALUE_HEADER_SIZE + n := by
  obtain ⟨x, hx, h⟩ := bind_eq_ok h
  cases h
  rw [readTo] at hx
  split at hx
  · have hwidth : Scalar.width T ≤ buff.length := by
      rw [← ‹_ = Scalar.width T›]
      exact List.length_take_le' _ _
    rw [hmk x hnd]
    omega
  · cases hx

theorem takesHeader_deserialize (shouldReverse : Bool) (depth : Nat) :
    TakesHeader (_deserialize shouldReverse depth) := by
  intro buff w n h
  cases depth with
  | zero => cases h
  | succ depth =>
    obtain ⟨_, _, h⟩ := bind_eq_ok h
    obtain ⟨_, _, h⟩ := bind_eq_ok h
    obtain ⟨_, hbody, _⟩ := bind_eq_ok h
    exact (substr_eq_ok hbody).1

theorem fits_deserialize (shouldReverse : Bool) (depth : Nat) :
    Fits (_deserialize shouldReverse depth) := by
  induction depth with
  | zero =>
    rintro buff w n h
    cases h
  | succ depth ih =>
    rintro buff w n h hnd
    obtain ⟨type, _, h⟩ := bind_eq_ok h
    obtain ⟨len, _, h⟩ := bind_eq_ok h
    obtain ⟨body, hbody, h⟩ := bind_eq_ok h
    obtain ⟨hheader, hbody⟩ := substr_eq_ok hbody
    have hlength : buff.length = VALUE_HEADER_SIZE + body.length := by
      rw [hbody, List.length_drop]
      omega
    rw [hlength]
    unfold deserializeTyped at h
    split at h
    case h_9 =>
      obtain ⟨x, _, h⟩ := bind_eq_ok h
      cases h
      cases hnd
    case h_10 =>
      cases h
      have htake := List.length_take_le len.toNat body
      have htake' := List.length_take_le' len.toNat body
      rw [length_serialize_string, VALUE_HEADER_SIZE]
      omega
    case h_11 =>
      obtain ⟨⟨elems, size⟩, helems, h⟩ := bind_eq_ok h
      cases h
      rw [Value.noDouble, Value.noDoubleElems_iff] at hnd
      obtain ⟨hsize, hbuff⟩ := serializeElems_fits ih helems hnd
      have hbuff := hbuff fun _ => Nat.zero_le _
      rw [length_serialize_array, VALUE_HEADER_SIZE]
      omega
    case h_12 =>
      obtain ⟨⟨entries, size⟩, hentries, h⟩ := bind_eq_ok h
      cases h
      rw [Value.noDouble, Value.noDoubleEntries_iff] at hnd
      obtain ⟨_, hsize, hbuff⟩ := serializeEntries_fits ih
        (takesHeader_deserialize shouldReverse depth) hentries hnd
      have hbuff := hbuff fun _ => Nat.zero_le _
      rw [length_serialize_map, VALUE_HEADER_SIZE]
      omega
    case h_13 => cases h
    all_goals exact readIntegral_fits (fun x _ => by simp [_serialize, integralCase, Scalar.width, VALUE_HEADER_SIZE]) h hnd

omit [Machine] in
/-- The other list of the same map has the keys of the first, in another order. -/
theorem Value.sameEntries_keys {es fs : Map} (hnodup : (es.map Prod.fst).Nodup)
    (hlen : es.length = fs.length) (h : sameEntries es fs) :
    (es.map Prod.fst).Perm (fs.map Prod.fst) := by
  have hsubset : es.map Prod.fst ⊆ fs.map Prod.fst := by
    intro key hkey
    obtain ⟨e, he, rfl⟩ := List.mem_map.mp hkey
    obtain ⟨w, hw, _⟩ := sameEntries_iff.mp h e he
    obtain ⟨before, after, rfl, _⟩ := List.lookup_eq_some_iff.mp hw
    simp
  apply (hnodup.subperm hsubset).perm_of_length_le
  rw [List.length_map, List.length_map, hlen]

omit [Machine] in
theorem Value.noDouble_of_sameElems {vs ws : List Value}
    (ih : ∀ v ∈ vs, ∀ w, v.same w → v.noDouble → w.noDouble) (h : sameElems vs ws)
    (hnd : noDoubleElems vs) : noDoubleElems ws := by
  induction vs generalizing ws with
  | nil =>
    cases ws with
    | nil => rfl
    | cons w ws => cases h
  | cons v vs ih' =>
    cases ws with
    | nil => cases h
    | cons w ws =>
      rw [sameElems, Bool.and_eq_true] at h
      rw [noDoubleElems, Bool.and_eq_true] at hnd ⊢
      refine ⟨ih v List.mem_cons_self w h.1 hnd.1, ?_⟩
      exact ih' (fun u hu => ih u (List.mem_cons_of_mem v hu)) h.2 hnd.2

theorem length_of_sameElems {vs ws : List Value}
    (ih : ∀ v ∈ vs, ∀ w, v.same w → (_serialize v).length ≤ (_serialize w).length)
    (h : Value.sameElems vs ws) : (serializeElems vs).length ≤ (serializeElems ws).length := by
  induction vs generalizing ws with
  | nil => exact Nat.zero_le _
  | cons v vs ih' =>
    cases ws with
    | nil => cases h
    | cons w ws =>
      rw [Value.sameElems, Bool.and_eq_true] at h
      rw [serializeElems, serializeElems, List.length_append, List.length_append]
      exact Nat.add_le_add (ih v List.mem_cons_self w h.1)
        (ih' (fun u hu => ih u (List.mem_cons_of_mem v hu)) h.2)

def entryLength (fs : Map) (key : Bytes) : Nat :=
  match fs.lookup key with
  | some w => (serializeEntry (key, w)).length
  | none => 0

theorem length_of_sameEntries {es fs : Map} (hnodup : (es.map Prod.fst).Nodup)
    (hlen : es.length = fs.length)
    (ih : ∀ e ∈ es, ∀ w, e.2.same w → (_serialize e.2).length ≤ (_serialize w).length)
    (h : Value.sameEntries es fs) :
    (serializeEntries es).length ≤ (serializeEntries fs).length := by
  have hperm := Value.sameEntries_keys hnodup hlen h
  have hfs : fs.map (fun e => (serializeEntry e).length) =
      (fs.map Prod.fst).map (entryLength fs) := by
    rw [List.map_map]
    refine List.map_congr_left fun e he => ?_
    rw [Function.comp_apply, entryLength, Value.lookup_of_mem (hperm.nodup hnodup) he]
  have hes : ∀ e ∈ es, (serializeEntry e).length ≤ entryLength fs e.1 := by
    intro e he
    obtain ⟨w, hw, hsame⟩ := Value.sameEntries_iff.mp h e he
    rw [entryLength, hw]
    dsimp only
    rw [length_serializeEntry, length_serializeEntry]
    exact Nat.add_le_add_left (ih e he w hsame) _
  calc (serializeEntries es).length
    _ = (es.map fun e => (serializeEntry e).length).sum := length_serializeEntries es
    _ ≤ (es.map (entryLength fs ∘ Prod.fst)).sum := List.sum_le_sum hes
    _ = ((es.map Prod.fst).map (entryLength fs)).sum := by rw [List.map_map]
    _ = ((fs.map Prod.fst).map (entryLength fs)).sum := (hperm.map _).sum_eq
    _ = (serializeEntries fs).length := by rw [← hfs, length_serializeEntries]

theorem length_of_same {v : Value} (hwf : v.wellFormed) :
    ∀ w, v.same w → (_serialize v).length ≤ (_serialize w).length := by
  induction v using Value.nestedInduction with
  | array vs ih =>
    rintro w h
    cases w with
    | array ws =>
      simp only [Value.wellFormed, Bool.and_eq_true] at hwf
      rw [Value.wellFormedElems_iff] at hwf
      rw [length_serialize_array, length_serialize_array]
      rw [Value.same] at h
      exact Nat.add_le_add_left (length_of_sameElems (fun v hv => ih v hv (hwf.2 v hv)) h) 5
    | _ => cases h
  | map es ih =>
    rintro w h
    cases w with
    | map fs =>
      simp only [Value.wellFormed, Bool.and_eq_true, decide_eq_true_eq] at hwf
      rw [Value.wellFormedEntries_iff] at hwf
      simp only [Value.same, Bool.and_eq_true, decide_eq_true_eq] at h
      rw [length_serialize_map, length_serialize_map]
      exact Nat.add_le_add_left (length_of_sameEntries hwf.1.2 h.1
        (fun e he => ih e he (hwf.2 e he).2) h.2) 5
    | _ => cases h
  | _ n =>
    rintro w h
    cases w <;> simp only [Value.same, decide_eq_true_eq, Bool.false_eq_true] at h
    rw [h]

omit [Machine] in
theorem Value.noDouble_of_same {v : Value} (hwf : v.wellFormed) :
    ∀ w, v.same w → v.noDouble → w.noDouble := by
  induction v using nestedInduction with
  | array vs ih =>
    rintro w h hnd
    cases w with
    | array ws =>
      simp only [wellFormed, Bool.and_eq_true] at hwf
      rw [wellFormedElems_iff] at hwf
      rw [same] at h
      rw [noDouble] at hnd ⊢
      exact noDouble_of_sameElems (fun v hv => ih v hv (hwf.2 v hv)) h hnd
    | _ => cases h
  | map es ih =>
    rintro w h hnd
    cases w with
    | map fs =>
      simp only [wellFormed, Bool.and_eq_true, decide_eq_true_eq] at hwf
      rw [wellFormedEntries_iff] at hwf
      simp only [same, Bool.and_eq_true, decide_eq_true_eq] at h
      rw [noDouble, noDoubleEntries_iff] at hnd ⊢
      intro f hf
      have hperm := sameEntries_keys hwf.1.2 h.1 h.2
      obtain ⟨e, he, hkey⟩ := List.mem_map.mp (hperm.mem_iff.mpr (List.mem_map_of_mem hf))
      obtain ⟨w, hw, hsame⟩ := sameEntries_iff.mp h.2 e he
      rw [hkey, lookup_of_mem (hperm.nodup hwf.1.2) hf] at hw
      cases hw
      exact ih e he (hwf.2 e he).2 f.2 hsame (hnd e he)
    | _ => cases h
  | double bits =>
    rintro w h hnd
    cases hnd
  | _ n =>
    rintro w h hnd
    cases w <;> simp only [same, Bool.false_eq_true] at h
    rfl

/-- No value comes back from its buffer. -/
theorem deserializeValue_never {v : Value} (hwf : v.wellFormed) (hnd : v.noDouble) :
    ¬ ∃ w, deserializeValue (serializeValue v) = .ok w ∧ v.same w := by
  rintro ⟨w, hread, hsame⟩
  obtain ⟨_, _, hread⟩ := bind_eq_ok hread
  obtain ⟨endian, _, hread⟩ := bind_eq_ok hread
  obtain ⟨body, hbody, hread⟩ := bind_eq_ok hread
  obtain ⟨⟨w, n⟩, hw, hread⟩ := bind_eq_ok hread
  cases hread
  obtain ⟨_, rfl⟩ := substr_eq_ok hbody
  have hfits := (fits_deserialize _ _ _ w n hw (Value.noDouble_of_same hwf w hsame hnd)).1
  have hlength := length_of_same hwf w hsame
  have hpos := five_le_length v
  rw [serializeValue, List.length_drop, List.length_append] at hfits
  simp only [List.length_cons, List.length_nil] at hfits
  omega

end

section
attribute [local instance] littleEndian

theorem deserializeValue_never_u8 :
    ¬ ∃ w, deserializeValue (serializeValue (.u8 3)) = .ok w ∧ (Value.u8 3).same w :=
  deserializeValue_never (by decide) (by decide)

theorem deserializeValue_hello :
    (Value.string [104, 101, 108, 108, 111]).wellFormed ∧
      (Value.string [104, 101, 108, 108, 111]).noDouble ∧
      deserializeValue (serializeValue (.string [104, 101, 108, 108, 111])) = .ok (.i8 111) ∧
      ¬ (Value.string [104, 101, 108, 108, 111]).same (.i8 111) := by
  refine ⟨by decide, by decide, rfl, by decide⟩

end

end Ambry.Asf
