import Ambry.Asf.Schema
import Ambry.Foundation.Lookup

/-!
# The flags of a schema

What a call does to the schema is to set the flags of the fields that its buffer
came to. The entries of the buffer are judged alike whatever the flags are, so a
call is a scan of the buffer and then the check of the required fields, with the
flags of this call and of all calls before it.
-/

namespace Ambry.Asf

open Foundation Stateful

variable [Machine] {σ τ : Type}

theorem deserializeFields_simulates {R : σ → τ → Prop}
    {find : Bytes → Stateful Failure σ SchemaField} {find' : Bytes → Stateful Failure τ SchemaField}
    (hfind : ∀ key, Simulates R (find key) (find' key))
    (dec : Bytes → Outcome (Value × Nat)) (shouldReverse : Bool) (buff : Bytes)
    (n i offset : Nat) (out : Map) :
    Simulates R (deserializeFields find dec shouldReverse buff n i offset out)
      (deserializeFields find' dec shouldReverse buff n i offset out) := by
  induction n generalizing i offset out with
  | zero => exact .pure _
  | succ n ih =>
    refine .bind (.lift _) fun entry => ?_
    refine .bind (hfind entry.1) fun field => ?_
    refine .bind (.lift _) fun value => ?_
    refine .bind (.lift _) fun j => ?_
    exact ih _ _ _

namespace Schema

def mark (schema : Schema) (key : Bytes) : Schema :=
  match schema.fields.lookup key with
  | none => schema
  | some field =>
    { schema with fields := schema.fields.insert key { field with found := true } }

def marked (schema : Schema) (keys : List Bytes) : Schema := keys.foldl mark schema

variable (schema : Schema)

omit [Machine] in
@[simp] theorem opts_mark (key : Bytes) : (schema.mark key).opts = schema.opts := by
  rw [mark]
  split <;> rfl

omit [Machine] in
@[simp] theorem opts_marked (keys : List Bytes) : (schema.marked keys).opts = schema.opts := by
  induction keys generalizing schema with
  | nil => rfl
  | cons key keys ih => exact (ih (schema.mark key)).trans (opts_mark schema key)

omit [Machine] in
theorem lookup_mark (key k : Bytes) : (schema.mark key).fields.lookup k =
    (schema.fields.lookup k).map fun field =>
      { field with found := field.found || decide (k = key) } := by
  rw [mark]
  split
  · rename_i hnone
    rcases eq_or_ne k key with rfl | hne
    · simp [hnone]
    · simp [hne]
  · rename_i field hfield
    rcases eq_or_ne k key with rfl | hne
    · simp [hfield]
    · simp [hne, AList.lookup_insert_ne hne]

omit [Machine] in
theorem lookup_marked (keys : List Bytes) (k : Bytes) : (schema.marked keys).fields.lookup k =
    (schema.fields.lookup k).map fun field =>
      { field with found := field.found || decide (k ∈ keys) } := by
  induction keys generalizing schema with
  | nil => simp [marked]
  | cons key keys ih =>
    change ((schema.mark key).marked keys).fields.lookup k = _
    rw [ih, lookup_mark, Option.map_map]
    simp only [Function.comp_def, Bool.or_assoc, List.mem_cons, Bool.decide_or]

omit [Machine] in
theorem marked_append (keys keys' : List Bytes) :
    schema.marked (keys ++ keys') = (schema.marked keys).marked keys' := List.foldl_append

omit [Machine] in
/-- Looking a key up among the fields, the code's way and the scan's. -/
theorem find_simulates (key : Bytes) :
    Simulates (fun s keys => s = schema.marked keys) (find key) (schema.note key) := by
  rintro _ keys rfl
  have hlookup := lookup_marked schema keys key
  rw [find, note, exec_bind, exec_get]
  cases hfield : schema.fields.lookup key with
  | none =>
    simp only [hfield, Option.map_none] at hlookup
    simp only [hlookup, opts_marked, exec_throw, and_self]
  | some field =>
    simp only [hfield, Option.map_some] at hlookup
    simp only [hlookup, exec_bind, exec_set, exec_get, exec_pure, marked_append, true_and]
    change _ = (schema.marked keys).mark key
    rw [mark, hlookup]

omit [Machine] in
theorem note_simulates (key : Bytes) (before : List Bytes) :
    Simulates (fun keys keys' => keys = before ++ keys') (schema.note key) (schema.note key) := by
  rintro _ keys rfl
  rw [note]
  cases schema.fields.lookup key with
  | none => exact ⟨rfl, rfl⟩
  | some field =>
    simp only [exec_bind, exec_set, exec_get, exec_pure, true_and]
    exact List.append_assoc _ _ _

theorem scanMap_simulates (before : List Bytes) (buff : Bytes) :
    Simulates (fun keys keys' => keys = before ++ keys') (schema.scanMap buff)
      (schema.scanMap buff) := by
  refine .bind (.lift _) fun header => ?_
  refine .bind ?_ fun result => .pure _
  exact deserializeFields_simulates (fun key => note_simulates schema key before) _ _ _ _ _ _ _

theorem exec_scanMap (before : List Bytes) (buff : Bytes) :
    (schema.scanMap buff).exec before =
      ((schema.scan buff).1, before ++ (schema.scan buff).2) := by
  obtain ⟨hresult, hkeys⟩ :=
    scanMap_simulates schema before buff before [] (List.append_nil before).symm
  exact Prod.ext hresult hkeys

/-- The loop of the code, from flags that were set before, against the loop of the scan. -/
theorem exec_deserializeFields (before : List Bytes) (dec : Bytes → Outcome (Value × Nat))
    (shouldReverse : Bool) (buff : Bytes) (n i offset : Nat) (out : Map) :
    (deserializeFields find dec shouldReverse buff n i offset out).exec (schema.marked before) =
      Prod.map id schema.marked
        ((deserializeFields schema.note dec shouldReverse buff n i offset out).exec before) := by
  obtain ⟨hresult, hstate⟩ := deserializeFields_simulates (find_simulates schema) dec
    shouldReverse buff n i offset out _ before rfl
  exact Prod.ext hresult hstate

/-- The check of the required fields, after a scan. -/
def verdict (result : Outcome Map) : Outcome Map :=
  result.bind fun map => if schema.complete then .ok map else .error .nullopt

theorem exec_deserialize (before : List Bytes) (buff : Bytes) :
    (deserialize buff).exec (schema.marked before) =
      ((schema.marked (before ++ (schema.scan buff).2)).verdict (schema.scan buff).1,
        schema.marked (before ++ (schema.scan buff).2)) := by
  have hscan := exec_scanMap schema before buff
  rw [scanMap, exec_bind, exec_lift] at hscan
  rw [deserialize, exec_bind, exec_lift]
  cases hheader : readHeader buff with
  | error e =>
    rw [hheader] at hscan
    obtain ⟨hresult, hkeys⟩ := Prod.mk.inj hscan
    rw [← hresult, ← hkeys]
    rfl
  | ok header =>
    obtain ⟨shouldReverse, len, body⟩ := header
    rw [hheader] at hscan
    simp only [exec_bind] at hscan
    simp only [exec_bind, deserializeMap]
    rw [exec_deserializeFields]
    generalize exec (deserializeFields schema.note (_deserialize shouldReverse (buff.length + 1))
      shouldReverse body len.toNat 0 0 []) before = loop at hscan ⊢
    obtain ⟨result, keys⟩ := loop
    cases result with
    | error e =>
      obtain ⟨hresult, hkeys⟩ := Prod.mk.inj hscan
      rw [← hresult, ← hkeys]
      rfl
    | ok result =>
      obtain ⟨hresult, hkeys⟩ := Prod.mk.inj hscan
      rw [← hresult, ← hkeys]
      simp only [exec_get, verdict]
      cases hcomplete : (schema.marked keys).complete with
      | true => simp [Except.bind, hcomplete]
      | false => simp [Except.bind, hcomplete]

/-- A field that is not optional and not yet found. -/
def Requires (key : Bytes) : Prop :=
  ∃ field, schema.fields.lookup key = some field ∧ field.optional = false ∧ field.found = false

omit [Machine] in
theorem complete_iff : schema.complete ↔ ∀ key, ¬ schema.Requires key := by
  rw [complete, List.all_eq_true]
  constructor
  · rintro h key ⟨field, hlookup, hoptional, hfound⟩
    have hfield := h ⟨key, field⟩ (AList.mem_lookup_iff.mp hlookup)
    simp only [hoptional, hfound, Bool.or_self, Bool.false_eq_true] at hfield
  · rintro h ⟨key, field⟩ hentry
    by_contra hflags
    simp only [Bool.not_eq_true, Bool.or_eq_false_iff] at hflags
    exact h key ⟨field, AList.mem_lookup_iff.mpr hentry, hflags.1, hflags.2⟩

omit [Machine] in
theorem requires_marked {keys : List Bytes} {key : Bytes} :
    (schema.marked keys).Requires key ↔ schema.Requires key ∧ key ∉ keys := by
  rw [Requires, lookup_marked]
  constructor
  · rintro ⟨field, hlookup, hoptional, hfound⟩
    obtain ⟨field', hfield, rfl⟩ := Option.map_eq_some_iff.mp hlookup
    simp only [Bool.or_eq_false_iff, decide_eq_false_iff_not] at hfound
    exact ⟨⟨field', hfield, hoptional, hfound.1⟩, hfound.2⟩
  · rintro ⟨⟨field, hlookup, hoptional, hfound⟩, hkey⟩
    have hlookup' := congrArg (Option.map fun f : SchemaField =>
      { f with found := f.found || decide (key ∈ keys) }) hlookup
    exact ⟨_, hlookup', hoptional, by simp [hfound, hkey]⟩

omit [Machine] in
theorem complete_marked (keys : List Bytes) :
    (schema.marked keys).complete ↔ ∀ key, schema.Requires key → key ∈ keys := by
  simp only [complete_iff, requires_marked, not_and, not_not]

omit [Machine] in
theorem verdict_of_complete (h : schema.complete) (result : Outcome Map) :
    schema.verdict result = result := by
  cases result with
  | error e => rfl
  | ok map => exact if_pos h

omit [Machine] in
theorem verdict_of_not_complete (h : ¬ schema.complete) (map : Map) :
    schema.verdict (.ok map) = .error .nullopt := if_neg h

/-- The result of one call. -/
def result (buff : Bytes) : Outcome Map := ((deserialize buff).exec schema).1

theorem result_eq (buff : Bytes) : schema.result buff =
    (schema.marked (schema.scan buff).2).verdict (schema.scan buff).1 := by
  have hexec := exec_deserialize schema [] buff
  rw [List.nil_append] at hexec
  exact congrArg Prod.fst hexec

end Schema

end Ambry.Asf
