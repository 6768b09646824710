import Ambry.Asf.Acceptance

/-!
# Keys that are not fields

The option `allow_undefined` lets a key pass that is not a field. The lookup of
such a key ends at the end of the fields, and the flag is set there all the same.
-/

namespace Ambry.Asf

open Foundation Stateful

namespace Schema

/-- The entries whose keys are fields satisfy them, and no field is missing. -/
def AcceptsKnown (schema : Schema) (m : Map) : Prop :=
  (∀ e ∈ m, ∀ field, schema.fields.lookup e.1 = some field → field.accepts e.2) ∧
    ∀ key field, schema.fields.lookup key = some field → field.optional = false →
      key ∈ m.map Prod.fst

section
variable [Machine]

/-- The map is read without a step past the end of the fields, whatever keys it has besides. -/
def Lenient (schema : Schema) (m : Map) : Prop :=
  schema.result (serialize m) ≠ .error .undefined ∧
    (schema.AcceptsKnown m → schema.result (serialize m) = .ok m) ∧
    (¬ schema.AcceptsKnown m → schema.result (serialize m) = .error .nullopt)

variable {schema : Schema} {m : Map}

omit [Machine] in
theorem acceptsKnown_of_passes (h : ∀ e ∈ m, schema.Passes e) :
    schema.AcceptsKnown m ↔ schema.Accepts m := by
  constructor
  · rintro ⟨_, hcomplete⟩
    exact ⟨h, hcomplete⟩
  · rintro ⟨_, hcomplete⟩
    refine ⟨?_, hcomplete⟩
    intro e he field hfield
    obtain ⟨field', hfield', haccepts⟩ := h e he
    rw [hfield] at hfield'
    cases hfield'
    exact haccepts

omit [Machine] in
/-- The first entry that does not pass is one that the loop comes to. -/
theorem exists_first_refused (h : ¬ ∀ e ∈ m, schema.Passes e) :
    ∃ e ∈ m, schema.Reaches m e.1 ∧ ¬ schema.Passes e := by
  induction m with
  | nil => simp at h
  | cons d m ih =>
    by_cases hd : schema.Passes d
    · have hm : ¬ ∀ e ∈ m, schema.Passes e := fun hm => h (List.forall_mem_cons.mpr ⟨hd, hm⟩)
      obtain ⟨e, he, hreach, hrefused⟩ := ih hm
      exact ⟨e, List.mem_cons_of_mem d he, reaches_cons.mpr (.inr ⟨hd, hreach⟩), hrefused⟩
    · exact ⟨d, List.mem_cons_self, reaches_cons.mpr (.inl rfl), hd⟩

omit [Machine] in
theorem not_acceptsKnown (hknown : ∀ key, schema.Reaches m key → key ∈ schema.fields)
    (h : ¬ ∀ e ∈ m, schema.Passes e) : ¬ schema.AcceptsKnown m := by
  obtain ⟨e, he, hreach, hrefused⟩ := exists_first_refused h
  obtain ⟨field, hfield⟩ := Option.isSome_iff_exists.mp (AList.lookup_isSome.mpr (hknown _ hreach))
  rintro ⟨haccepts, _⟩
  exact hrefused ⟨field, hfield, haccepts e he field hfield⟩

/-- Unknown keys are admitted exactly as long as the loop does not come to one. -/
theorem deserialize_lenient_iff (hallow : schema.opts.allowUndefined = true)
    (hfound : ∀ key field, schema.fields.lookup key = some field → field.found = false)
    (hfn : ∀ key field, schema.fields.lookup key = some field → ∀ fn, field.fn = some fn →
      ∀ v, (fn v).2 = v)
    (hwf : (Value.map m).wellFormed) (hnd : (Value.map m).noDouble) :
    schema.Lenient m ↔ ∀ key, schema.Reaches m key → key ∈ schema.fields := by
  constructor
  · rintro ⟨hdefined, _⟩ key hreach
    by_contra hkey
    apply hdefined
    rw [result_eq, scan_serialize schema hwf hnd, judge_undefined_of_reaches hallow hreach hkey]
    rfl
  · intro hknown
    by_cases hpasses : ∀ e ∈ m, schema.Passes e
    · obtain ⟨hread, hmissing⟩ := result_of_passes schema hfound hfn hwf hnd hpasses
      rw [Lenient, acceptsKnown_of_passes hpasses]
      refine ⟨?_, hread, hmissing⟩
      by_cases haccepts : schema.Accepts m
      · rw [hread haccepts]
        exact nofun
      · rw [hmissing haccepts]
        exact nofun
    · have hresult := result_of_not_passes schema hwf hnd hpasses fun _ => hknown
      refine ⟨?_, ?_, fun _ => hresult⟩
      · rw [hresult]
        exact nofun
      · intro haccepts
        exact absurd haccepts (not_acceptsKnown hknown hpasses)

end

section
attribute [local instance] littleEndian

/-- A required byte from 18 on under the key `a`; any other key may come with it. -/
def openAdults : Schema where
  opts := { allowUndefined := true }
  fields := AList.insert [97] { type := .u8, fn := some fun v => (ofAge v, v) } ∅

theorem lookup_openAdults {key : Bytes} {field : SchemaField}
    (h : openAdults.fields.lookup key = some field) :
    key = [97] ∧ field = { type := .u8, fn := some fun v => (ofAge v, v) } := by
  rcases lookup_insert_cases h with h | ⟨_, h⟩
  · exact h
  · cases h

theorem openAdults_unset (key : Bytes) (field : SchemaField)
    (h : openAdults.fields.lookup key = some field) : field.found = false := by
  obtain ⟨_, rfl⟩ := lookup_openAdults h
  rfl

theorem openAdults_kept (key : Bytes) (field : SchemaField)
    (h : openAdults.fields.lookup key = some field) :
    ∀ fn, field.fn = some fn → ∀ v, (fn v).2 = v := by
  obtain ⟨_, rfl⟩ := lookup_openAdults h
  intro fn hfn v
  cases hfn
  rfl

/-- The unknown key `b` stands behind an entry that does not pass. -/
theorem deserialize_lenient_refused :
    openAdults.Lenient [([97], .u8 17), ([98], .u8 1)] := by
  refine (deserialize_lenient_iff rfl openAdults_unset openAdults_kept (by decide)
    (by decide)).mpr ?_
  intro key hreach
  rcases reaches_cons.mp hreach with rfl | ⟨⟨field, hfield, haccepts⟩, _⟩
  · decide
  · obtain ⟨_, rfl⟩ := lookup_openAdults hfield
    cases haccepts

/-- An unknown key alone, under a schema without fields: the flag is set past the end. -/
theorem deserialize_not_lenient : ¬ ∀ (schema : Schema) (m : Map),
    schema.opts.allowUndefined = true →
    (∀ key field, schema.fields.lookup key = some field → field.found = false) →
    (∀ key field, schema.fields.lookup key = some field → ∀ fn, field.fn = some fn →
      ∀ v, (fn v).2 = v) →
    (Value.map m).wellFormed → (Value.map m).noDouble → schema.Lenient m := by
  intro hall
  obtain ⟨hdefined, _⟩ := hall { opts := { allowUndefined := true }, fields := ∅ } [([98], .u8 1)] rfl
    (by rintro key field ⟨⟩) (by rintro key field ⟨⟩) (by decide) (by decide)
  exact hdefined rfl

end

end Schema

end Ambry.Asf
