import Ambry.Asf.Flags
import Ambry.Asf.RoundTrip

/-!
# What a schema accepts

For a buffer that was written from a map, the scan is a judgement on the entries
of the map. It goes on to the first entry that does not pass, and ends with the
whole map if there is none.
-/

namespace Ambry.Asf

open Foundation Stateful

def Value.type : Value → ValueType
  | .i8 _ => .i8
  | .u8 _ => .u8
  | .i16 _ => .i16
  | .u16 _ => .u16
  | .i32 _ => .i32
  | .u32 _ => .u32
  | .i64 _ => .i64
  | .u64 _ => .u64
  | .double _ => .double
  | .string _ => .stringT
  | .array _ => .arrayT
  | .map _ => .mapT

theorem ValueType.byte_injective : Function.Injective ValueType.byte := by
  intro t t' h
  cases t <;> cases t' <;> first | rfl | cases h

namespace SchemaField

def accepts (field : SchemaField) (v : Value) : Bool :=
  (field.type = .anyT || field.type = v.type) && field.fn.all fun fn => (fn v).1

/-- The value that the function of the field leaves in place of the one it looks at. -/
def leaves (field : SchemaField) (v : Value) : Value :=
  match field.fn with
  | none => v
  | some fn => (fn v).2

end SchemaField

namespace Schema

/-- The judgement on the entries of a map, with the keys of the fields it comes to. -/
def judge (schema : Schema) : Map → Outcome Map × List Bytes
  | [] => (.ok [], [])
  | (key, v) :: es =>
    match schema.fields.lookup key with
    | none => (.error (if schema.opts.allowUndefined then .undefined else .nullopt), [])
    | some field =>
      if field.accepts v then
        ((judge schema es).1.map fun m => (key, field.leaves v) :: m, key :: (judge schema es).2)
      else (.error .nullopt, [key])

def Passes (schema : Schema) (e : Bytes × Value) : Prop :=
  ∃ field, schema.fields.lookup e.1 = some field ∧ field.accepts e.2

/-- The key of the first entry that does not pass, or of one before it. -/
def Reaches (schema : Schema) (m : Map) (key : Bytes) : Prop :=
  ∃ before v after, m = before ++ (key, v) :: after ∧ ∀ e ∈ before, schema.Passes e

/-- The order-free reading of a schema: every entry passes, no field is missing. -/
def Accepts (schema : Schema) (m : Map) : Prop :=
  (∀ e ∈ m, schema.Passes e) ∧
    ∀ key field, schema.fields.lookup key = some field → field.optional = false →
      key ∈ m.map Prod.fst

variable {schema : Schema} {key : Bytes} {v : Value} {es m : Map}

theorem reaches_cons {e : Bytes × Value} :
    schema.Reaches (e :: es) key ↔ key = e.1 ∨ (schema.Passes e ∧ schema.Reaches es key) := by
  constructor
  · rintro ⟨before, w, after, hes, hbefore⟩
    cases before with
    | nil =>
      cases hes
      exact .inl rfl
    | cons d before =>
      cases hes
      exact .inr ⟨hbefore e List.mem_cons_self, before, w, after, rfl,
        fun d hd => hbefore d (List.mem_cons_of_mem e hd)⟩
  · rintro (rfl | ⟨hpasses, before, w, after, rfl, hbefore⟩)
    · exact ⟨[], e.2, es, rfl, by simp⟩
    · exact ⟨e :: before, w, after, rfl, List.forall_mem_cons.mpr ⟨hpasses, hbefore⟩⟩

theorem judge_unknown (h : schema.fields.lookup key = none) : schema.judge ((key, v) :: es) =
    (.error (if schema.opts.allowUndefined then .undefined else .nullopt), []) := by
  rw [judge, h]

theorem judge_refused {field : SchemaField} (h : schema.fields.lookup key = some field)
    (hv : field.accepts v = false) : schema.judge ((key, v) :: es) = (.error .nullopt, [key]) := by
  rw [judge, h]
  exact if_neg (by simp [hv])

theorem judge_accepted {field : SchemaField} (h : schema.fields.lookup key = some field)
    (hv : field.accepts v = true) : schema.judge ((key, v) :: es) =
      ((schema.judge es).1.map fun m => (key, field.leaves v) :: m, key :: (schema.judge es).2) := by
  rw [judge, h]
  exact if_pos hv

/-- An entry is unknown, refused by its field, or passes. -/
theorem entry_cases (schema : Schema) (key : Bytes) (v : Value) :
    (schema.fields.lookup key = none ∧ ¬ schema.Passes (key, v)) ∨
      (∃ field, schema.fields.lookup key = some field ∧ field.accepts v = false ∧
        ¬ schema.Passes (key, v)) ∨
      ∃ field, schema.fields.lookup key = some field ∧ field.accepts v = true ∧
        schema.Passes (key, v) := by
  cases hfield : schema.fields.lookup key with
  | none => exact .inl ⟨rfl, by rintro ⟨field, hlookup, _⟩; rw [hfield] at hlookup; cases hlookup⟩
  | some field =>
    cases hv : field.accepts v with
    | true => exact .inr (.inr ⟨field, rfl, hv, field, hfield, hv⟩)
    | false =>
      refine .inr (.inl ⟨field, rfl, hv, ?_⟩)
      rintro ⟨field', hlookup, hv'⟩
      rw [hfield] at hlookup
      cases hlookup
      rw [hv] at hv'
      cases hv'

theorem judge_of_passes (h : ∀ e ∈ m, schema.Passes e) :
    ∃ m', schema.judge m = (.ok m', m.map Prod.fst) ∧
      ((∀ key field, schema.fields.lookup key = some field → ∀ v, field.leaves v = v) → m' = m) := by
  induction m with
  | nil => exact ⟨[], rfl, fun _ => rfl⟩
  | cons e m ih =>
    obtain ⟨key, v⟩ := e
    obtain ⟨hpasses, hm⟩ := List.forall_mem_cons.mp h
    obtain ⟨field, hfield, hv⟩ := hpasses
    obtain ⟨m', hm', hleaves⟩ := ih hm
    refine ⟨(key, field.leaves v) :: m', ?_, fun hfn => ?_⟩
    · rw [judge_accepted hfield hv, hm']
      rfl
    · rw [hleaves hfn, hfn key field hfield v]

theorem passes_of_judge (h : (schema.judge m).1 = .ok es) : ∀ e ∈ m, schema.Passes e := by
  induction m generalizing es with
  | nil => simp
  | cons e m ih =>
    obtain ⟨key, v⟩ := e
    rcases entry_cases schema key v with
      ⟨hfield, _⟩ | ⟨field, hfield, hv, _⟩ | ⟨field, hfield, hv, hpasses⟩
    · rw [judge_unknown hfield] at h
      cases h
    · rw [judge_refused hfield hv] at h
      cases h
    · rw [judge_accepted hfield hv] at h
      obtain ⟨m', hm', _⟩ := map_eq_ok h
      exact List.forall_mem_cons.mpr ⟨hpasses, ih hm'⟩

theorem judge_error {e : Failure} (h : (schema.judge m).1 = .error e) :
    e = .nullopt ∨
      e = .undefined ∧ schema.opts.allowUndefined ∧ ∃ key, schema.Reaches m key ∧ key ∉ schema.fields := by
  induction m with
  | nil => cases h
  | cons e' m ih =>
    obtain ⟨key, v⟩ := e'
    rcases entry_cases schema key v with
      ⟨hfield, _⟩ | ⟨field, hfield, hv, _⟩ | ⟨field, hfield, hv, hpasses⟩
    · rw [judge_unknown hfield] at h
      cases hallow : schema.opts.allowUndefined with
      | false =>
        rw [hallow] at h
        cases h
        exact .inl rfl
      | true =>
        rw [hallow] at h
        cases h
        exact .inr ⟨rfl, rfl, key, reaches_cons.mpr (.inl rfl), AList.lookup_eq_none.mp hfield⟩
    · rw [judge_refused hfield hv] at h
      cases h
      exact .inl rfl
    · rw [judge_accepted hfield hv] at h
      cases hm : (schema.judge m).1 with
      | ok m' =>
        rw [hm] at h
        cases h
      | error e' =>
        rw [hm] at h
        cases h
        obtain rfl | ⟨rfl, hallow, key', hreach, hkey⟩ := ih hm
        · exact .inl rfl
        · exact .inr ⟨rfl, hallow, key', reaches_cons.mpr (.inr ⟨hpasses, hreach⟩), hkey⟩

theorem judge_undefined_of_reaches (hallow : schema.opts.allowUndefined)
    (hreach : schema.Reaches m key) (hkey : key ∉ schema.fields) :
    (schema.judge m).1 = .error .undefined := by
  obtain ⟨before, v, after, rfl, hbefore⟩ := hreach
  induction before with
  | nil =>
    rw [List.nil_append, judge_unknown (AList.lookup_eq_none.mpr hkey), hallow]
    rfl
  | cons e before ih =>
    obtain ⟨⟨field, hfield, hv⟩, hbefore⟩ := List.forall_mem_cons.mp hbefore
    rw [List.cons_append, judge_accepted hfield hv, ih hbefore]
    rfl

theorem judge_undefined_iff : (schema.judge m).1 = .error .undefined ↔
    schema.opts.allowUndefined ∧ ∃ key, schema.Reaches m key ∧ key ∉ schema.fields := by
  constructor
  · intro h
    obtain h | ⟨_, hallow, hreach⟩ := judge_error h
    · cases h
    · exact ⟨hallow, hreach⟩
  · rintro ⟨hallow, key, hreach, hkey⟩
    exact judge_undefined_of_reaches hallow hreach hkey

theorem judge_ok_iff : (∃ m', (schema.judge m).1 = .ok m') ↔ ∀ e ∈ m, schema.Passes e := by
  constructor
  · rintro ⟨m', h⟩
    exact passes_of_judge h
  · intro h
    obtain ⟨m', hm', _⟩ := judge_of_passes h
    exact ⟨m', congrArg Prod.fst hm'⟩

theorem mem_judge_keys {field : SchemaField} (hkey : schema.fields.lookup key = some field) :
    key ∈ (schema.judge m).2 ↔ schema.Reaches m key := by
  induction m with
  | nil => simp [judge, Reaches]
  | cons e m ih =>
    obtain ⟨key', v⟩ := e
    rw [reaches_cons]
    rcases entry_cases schema key' v with
      ⟨hfield, hpasses⟩ | ⟨field', hfield, hv, hpasses⟩ | ⟨field', hfield, hv, hpasses⟩
    · have hne : key ≠ key' := by
        rintro rfl
        rw [hkey] at hfield
        cases hfield
      simp [judge_unknown hfield, hpasses, hne]
    · simp [judge_refused hfield hv, hpasses]
    · simp [judge_accepted hfield hv, hpasses, ih]

end Schema

section
variable [Machine]

theorem serialize_type (v : Value) : ∃ body, _serialize v = v.type.byte :: body := by
  cases v <;> exact ⟨_, by rw [_serialize, writeTo_byte, List.singleton_append]; rfl⟩

theorem readKey_entry {key : Bytes} (hkey : key.length < 2 ^ 16) (v : Value) (pre tail : Bytes) :
    readKey false (pre ++ (serializeEntry (key, v) ++ tail)) pre.length =
      .ok (key, pre.length + (2 + key.length)) := by
  have hkeyLen : (UInt16.ofNat key.length).toNat = key.length := by
    rw [UInt16.toNat_ofNat', Nat.mod_eq_of_lt hkey]
  have hrest : substr (pre ++ (writeTo (UInt16.ofNat key.length) ++ (key ++ (_serialize v ++ tail))))
      (pre.length + 2) = .ok (key ++ (_serialize v ++ tail)) := by
    rw [← List.append_assoc]
    exact substr_append (by rw [List.length_append, writeTo_length]; rfl)
  rw [readKey, serializeEntry]
  simp only [List.append_assoc, substr_append rfl, readTo_writeTo, hrest, hkeyLen,
    List.take_left' rfl, bind, Except.bind, pure, Except.pure]

theorem readField_value {dec : Bytes → Outcome (Value × Nat)} {v : Value} (hv : Reads dec v)
    (field : SchemaField) (pre tail : Bytes) :
    readField dec (pre ++ (_serialize v ++ tail)) pre.length field =
      if field.accepts v then .ok (field.leaves v, (_serialize v).length - VALUE_HEADER_SIZE)
      else .error .nullopt := by
  have htype : byteAt (pre ++ (_serialize v ++ tail)) pre.length = .ok v.type.byte := by
    obtain ⟨body, hbody⟩ := serialize_type v
    rw [byteAt, List.getElem?_append_right (le_refl _), Nat.sub_self, hbody]
    rfl
  obtain ⟨type, optional, fn, found⟩ := field
  have htypes : (type ≠ .anyT ∧ v.type.byte ≠ type.byte) ↔ ¬ (type = .anyT ∨ type = v.type) := by
    rw [ne_eq v.type.byte, ValueType.byte_injective.eq_iff, eq_comm (a := v.type), not_or]
  rw [readField, htype]
  simp only [bind, Except.bind, htypes, substr_append rfl, hv tail, SchemaField.accepts,
    SchemaField.leaves]
  by_cases hany : type = .anyT ∨ type = v.type
  · have hany' : (decide (type = .anyT) || decide (type = v.type)) = true := by simpa using hany
    cases fn with
    | none => simp [hany, hany', pure, Except.pure]
    | some fn => simp [hany, hany', pure, Except.pure, throw, throwThe, MonadExceptOf.throw]
  · have hany' : (decide (type = .anyT) || decide (type = v.type)) = false := by simpa using hany
    simp [hany, hany', throw, throwThe, MonadExceptOf.throw]

theorem readField_entry {dec : Bytes → Outcome (Value × Nat)} {v : Value} (hv : Reads dec v)
    (field : SchemaField) (key pre tail : Bytes) :
    readField dec (pre ++ (serializeEntry (key, v) ++ tail)) (pre.length + (2 + key.length)) field =
      if field.accepts v then .ok (field.leaves v, (_serialize v).length - VALUE_HEADER_SIZE)
      else .error .nullopt := by
  have hread := readField_value hv field (pre ++ (writeTo (UInt16.ofNat key.length) ++ key)) tail
  simp only [List.length_append, writeTo_length, List.append_assoc] at hread
  rw [serializeEntry, List.append_assoc, List.append_assoc]
  exact hread

theorem readHeader_serialize (m : Map) : readHeader (serialize m) =
    .ok (false, UInt32.ofNat m.length, serializeEntries m) := by
  have hcheck : deserializeCheck isSingle (serialize m) = .ok () := by
    rw [deserializeCheck, if_neg]
    rintro (h | h | h)
    · cases h
    · rw [serialize, serializeMap, List.length_append, List.length_append, writeTo_length] at h
      change 2 + (4 + _) ≤ 2 at h
      omega
    · exact absurd h (by simp [isSingle, serialize])
  have hrest : substr (serialize m) 2 = .ok (serializeMap m) := substr_append rfl
  have hbody : substr (serialize m) 6 = .ok (serializeEntries m) := by
    rw [serialize, serializeMap, ← List.append_assoc]
    exact substr_append (by rw [List.length_append, writeTo_length]; rfl)
  have hendian : byteAt (serialize m) 1 = .ok machineEndian := rfl
  have hlen : readTo UInt32 (serializeMap m) false = .ok (UInt32.ofNat m.length) :=
    readTo_writeTo _ _
  rw [readHeader]
  simp only [hcheck, hendian, hrest, hbody, hlen, bind, Except.bind, pure, Except.pure, ne_eq,
    not_true_eq_false, decide_false]

namespace Schema

variable (schema : Schema)

theorem exec_fields {dec : Bytes → Outcome (Value × Nat)} (rest : Bytes) {es : Map}
    (hdec : ∀ e ∈ es, Reads dec e.2) (hkeys : ∀ e ∈ es, e.1.length < 2 ^ 16) (pre : Bytes) (i : Nat)
    (out : Map) (log : List Bytes) (hi : i + es.length < 2 ^ 31)
    (hnodup : (out.map Prod.fst ++ es.map Prod.fst).Nodup) :
    (deserializeFields schema.note dec false (pre ++ (serializeEntries es ++ rest)) es.length i
        pre.length out).exec log =
      ((schema.judge es).1.map fun m => (out ++ m, pre.length + (serializeEntries es).length),
        log ++ (schema.judge es).2) := by
  induction es generalizing pre i out log with
  | nil =>
    simp only [serializeEntries, List.length_nil, deserializeFields, exec_pure, judge, Except.map,
      List.append_nil, Nat.add_zero]
  | cons e es ih =>
    obtain ⟨key, v⟩ := e
    have hv := hdec (key, v) List.mem_cons_self
    have habsent : key ∉ out.map Prod.fst := by
      rw [List.map_cons] at hnodup
      exact fun hmem => (List.nodup_append.mp hnodup).2.2 _ hmem _ List.mem_cons_self rfl
    rw [List.length_cons] at hi
    have hkey : readKey false (pre ++ (serializeEntry (key, v) ++ (serializeEntries es ++ rest)))
        pre.length = .ok (key, pre.length + (2 + key.length)) :=
      readKey_entry (hkeys (key, v) List.mem_cons_self) v pre _
    rw [List.length_cons, serializeEntries, List.append_assoc, deserializeFields, exec_bind, exec_lift,
      hkey]
    simp only [exec_bind, note]
    cases hfield : schema.fields.lookup key with
    | none =>
      simp [judge, hfield, Except.map]
    | some field =>
      simp only [exec_bind, exec_get, exec_set, exec_pure, exec_lift,
        readField_entry hv { field with found := true }]
      have haccepts : SchemaField.accepts { field with found := true } v = field.accepts v := rfl
      have hleaves : SchemaField.leaves { field with found := true } v = field.leaves v := rfl
      rw [haccepts, hleaves]
      cases hv' : field.accepts v with
      | false => simp [judge, hfield, hv', Except.map]
      | true =>
        have hnext := ih (fun w hw => hdec w (List.mem_cons_of_mem _ hw))
          (fun w hw => hkeys w (List.mem_cons_of_mem _ hw)) (pre ++ serializeEntry (key, v)) (i + 1)
          (out ++ [(key, field.leaves v)]) (log ++ [key]) (by omega)
          (by simpa using hnodup)
        have hlength : (serializeEntry (key, v)).length = 2 + key.length + (_serialize v).length :=
          length_serializeEntry (key, v)
        rw [List.length_append, hlength, List.append_assoc, List.append_assoc, ← Nat.add_assoc] at hnext
        simp only [if_true, increment_eq (show i + 1 < 2 ^ 31 by omega), header_add_size, emplace,
          if_neg habsent]
        rw [hnext, judge, hfield]
        simp only [hv', if_true, List.append_assoc, List.singleton_append, List.length_append,
          hlength, Nat.add_assoc]
        cases (schema.judge es).1 with
        | error e => rfl
        | ok m => rfl

theorem scan_serialize {m : Map} (hwf : (Value.map m).wellFormed) (hnd : (Value.map m).noDouble) :
    schema.scan (serialize m) = schema.judge m := by
  have hread : ∀ e ∈ m, Reads (_deserialize false ((serialize m).length + 1)) e.2 := by
    apply reads_entries hwf hnd
    rw [serialize, serializeMap, List.length_append, List.length_append]
    omega
  simp only [Value.wellFormed, Bool.and_eq_true, decide_eq_true_eq] at hwf
  rw [Value.wellFormedEntries_iff] at hwf
  have hlen : (UInt32.ofNat m.length).toNat = m.length := by
    rw [UInt32.toNat_ofNat', Nat.mod_eq_of_lt (by omega)]
  have hloop := exec_fields schema [] hread (fun e he => (hwf.2 e he).1) [] 0 [] [] (by omega) hwf.1.2
  simp only [List.nil_append, List.append_nil, List.length_nil, Nat.zero_add] at hloop
  rw [scan, scanMap, exec_bind, exec_lift, readHeader_serialize]
  simp only [exec_bind, hlen, hloop]
  rcases hjudge : schema.judge m with ⟨e | m', keys⟩
  · rfl
  · rfl

/-- A map all of whose entries pass is read back unless a required field is missing. -/
theorem result_of_passes
    (hfound : ∀ key field, schema.fields.lookup key = some field → field.found = false)
    (hfn : ∀ key field, schema.fields.lookup key = some field → ∀ fn, field.fn = some fn →
      ∀ v, (fn v).2 = v)
    {m : Map} (hwf : (Value.map m).wellFormed) (hnd : (Value.map m).noDouble)
    (hpasses : ∀ e ∈ m, schema.Passes e) :
    (schema.Accepts m → schema.result (serialize m) = .ok m) ∧
      (¬ schema.Accepts m → schema.result (serialize m) = .error .nullopt) := by
  have hleaves : ∀ key field, schema.fields.lookup key = some field → ∀ v, field.leaves v = v := by
    intro key field hfield v
    rw [SchemaField.leaves]
    split
    · rfl
    · exact hfn key field hfield _ ‹_› v
  have hrequires : ∀ key, schema.Requires key ↔
      ∃ field, schema.fields.lookup key = some field ∧ field.optional = false := by
    intro key
    constructor
    · rintro ⟨field, hfield, hoptional, _⟩
      exact ⟨field, hfield, hoptional⟩
    · rintro ⟨field, hfield, hoptional⟩
      exact ⟨field, hfield, hoptional, hfound key field hfield⟩
  obtain ⟨m', hjudge, hm'⟩ := judge_of_passes hpasses
  obtain rfl := hm' hleaves
  have haccepts : (schema.marked (m'.map Prod.fst)).complete ↔ schema.Accepts m' := by
    simp only [complete_marked, Accepts, hrequires, forall_exists_index, and_imp]
    exact ⟨fun h => ⟨hpasses, h⟩, fun h => h.2⟩
  rw [result_eq, scan_serialize schema hwf hnd, hjudge]
  constructor
  · intro h
    exact verdict_of_complete _ (haccepts.mpr h) _
  · intro h
    exact verdict_of_not_complete _ (fun hcomplete => h (haccepts.mp hcomplete)) _

/-- An entry that does not pass ends the call with nothing, unless the end iterator is written
through first. -/
theorem result_of_not_passes {m : Map} (hwf : (Value.map m).wellFormed)
    (hnd : (Value.map m).noDouble) (hpasses : ¬ ∀ e ∈ m, schema.Passes e)
    (hknown : schema.opts.allowUndefined → ∀ key, schema.Reaches m key → key ∈ schema.fields) :
    schema.result (serialize m) = .error .nullopt := by
  rw [result_eq, scan_serialize schema hwf hnd]
  cases hjudge : (schema.judge m).1 with
  | ok m' => exact absurd (passes_of_judge hjudge) hpasses
  | error e =>
    obtain rfl | ⟨rfl, hallow, key, hreach, hkey⟩ := judge_error hjudge
    · rfl
    · exact absurd (hknown hallow key hreach) hkey

/-- Strict validation is the order-free reading of the schema, and reads what the plain
decoder reads. -/
theorem deserialize_strict (hstrict : schema.opts.allowUndefined = false)
    (hfound : ∀ key field, schema.fields.lookup key = some field → field.found = false)
    (hfn : ∀ key field, schema.fields.lookup key = some field → ∀ fn, field.fn = some fn →
      ∀ v, (fn v).2 = v)
    (m : Map) (hwf : (Value.map m).wellFormed) (hnd : (Value.map m).noDouble) :
    (schema.Accepts m → schema.result (serialize m) = .ok m) ∧
      (¬ schema.Accepts m → schema.result (serialize m) = .error .nullopt) := by
  by_cases hpasses : ∀ e ∈ m, schema.Passes e
  · exact result_of_passes schema hfound hfn hwf hnd hpasses
  · constructor
    · intro h
      exact absurd h.1 hpasses
    · intro _
      apply result_of_not_passes schema hwf hnd hpasses
      intro hallow
      rw [hstrict] at hallow
      cases hallow

end Schema

end

section
attribute [local instance] littleEndian

def ofAge : Value → Bool
  | .u8 n => 18 ≤ n
  | _ => false

/-- A required byte from 18 on under the key `a`, an optional string under the key `b`. -/
def adults : Schema where
  opts := { allowUndefined := false }
  fields := AList.insert [97] { type := .u8, fn := some fun v => (ofAge v, v) }
    (AList.insert [98] { type := .stringT, optional := true } ∅)

theorem lookup_adults {key : Bytes} {field : SchemaField} (h : adults.fields.lookup key = some field) :
    (key = [97] ∧ field = { type := .u8, fn := some fun v => (ofAge v, v) }) ∨
      key = [98] ∧ field = { type := .stringT, optional := true } := by
  rcases lookup_insert_cases h with h | ⟨_, h⟩
  · exact .inl h
  rcases lookup_insert_cases h with h | ⟨_, h⟩
  · exact .inr h
  · cases h

theorem deserialize_strict_adults :
    adults.result (serialize [([97], .u8 18)]) = .ok [([97], .u8 18)] ∧
      adults.result (serialize [([97], .u8 17)]) = .error .nullopt := by
  have hfound : ∀ key field, adults.fields.lookup key = some field → field.found = false := by
    intro key field h
    rcases lookup_adults h with ⟨_, rfl⟩ | ⟨_, rfl⟩ <;> rfl
  have hfn : ∀ key field, adults.fields.lookup key = some field → ∀ fn, field.fn = some fn →
      ∀ v, (fn v).2 = v := by
    intro key field h fn hfn v
    rcases lookup_adults h with ⟨_, rfl⟩ | ⟨_, rfl⟩ <;> cases hfn
    rfl
  constructor
  · refine (Schema.deserialize_strict adults rfl hfound hfn _ (by decide) (by decide)).1 ⟨?_, ?_⟩
    · intro e he
      obtain rfl := List.mem_singleton.mp he
      exact ⟨_, rfl, rfl⟩
    · intro key field h hoptional
      rcases lookup_adults h with ⟨rfl, _⟩ | ⟨_, rfl⟩
      · exact List.mem_singleton.mpr rfl
      · cases hoptional
  · apply (Schema.deserialize_strict adults rfl hfound hfn _ (by decide) (by decide)).2
    rintro ⟨hpasses, _⟩
    obtain ⟨field, h, haccepts⟩ := hpasses _ (List.mem_singleton.mpr rfl)
    rcases lookup_adults h with ⟨_, rfl⟩ | ⟨_, rfl⟩ <;> cases haccepts

end

end Ambry.Asf
