import Ambry.Asf.RoundTrip

/-!
# Where an encoding ends

What is written for a value says itself where it ends: whatever stands behind it,
it is read back with the size that was written, and the loops over elements and
entries come out behind the last of them. So a buffer begins with the encoding of
at most one value.
-/

namespace Ambry.Asf

open Foundation

section
variable [Machine]

variable {v w : Value} {depth : Nat}

/-- The sizes that the decoder returns are those of what was written, whatever follows. -/
theorem deserialize_delimited (hwf : v.wellFormed) (hnd : v.noDouble)
    (hdepth : (_serialize v).length < depth) (rest : Bytes) :
    _deserialize false depth (_serialize v ++ rest) =
        .ok (v, (_serialize v).length - VALUE_HEADER_SIZE) ∧
      (∀ elems, v = .array elems →
        deserializeArray (_deserialize false depth) (serializeElems elems ++ rest)
            (UInt32.ofNat elems.length) =
          .ok (elems, (elems.map fun e => (_serialize e).length).sum)) ∧
      ∀ entries, v = .map entries →
        deserializeMap (_deserialize false depth) (serializeEntries entries ++ rest) false
            (UInt32.ofNat entries.length) =
          .ok (entries, (entries.map fun e => (serializeEntry e).length).sum) := by
  refine ⟨reads_of_noDouble v hwf hnd depth hdepth rest, ?_, ?_⟩
  · rintro elems rfl
    rw [length_serialize_array] at hdepth
    rw [deserializeArray_elems hwf hnd (by omega), length_serializeElems]
  · rintro entries rfl
    rw [length_serialize_map] at hdepth
    rw [deserializeMap_entries hwf hnd (by omega), length_serializeEntries]

/-- A buffer begins with the encoding of at most one value. -/
theorem serialize_append_inj (hwf : v.wellFormed) (hnd : v.noDouble) (hwf' : w.wellFormed)
    (hnd' : w.noDouble) {rest rest' : Bytes} (h : _serialize v ++ rest = _serialize w ++ rest') :
    v = w ∧ rest = rest' := by
  have hv := reads_of_noDouble v hwf hnd ((_serialize v).length + (_serialize w).length + 1)
    (by omega) rest
  have hw := reads_of_noDouble w hwf' hnd' ((_serialize v).length + (_serialize w).length + 1)
    (by omega) rest'
  rw [h, hw] at hv
  cases hv
  exact ⟨rfl, List.append_cancel_left h⟩

end

attribute [local instance] littleEndian

theorem deserialize_delimited_nested :
    _deserialize false 40 (_serialize (.array [.u8 7, .map [([97], .string [104, 105])]]) ++ [9, 0]) =
      .ok (.array [.u8 7, .map [([97], .string [104, 105])]], 21) :=
  (deserialize_delimited (by decide) (by decide) (by decide) [9, 0]).1

end Ambry.Asf
