import Ambry.Asf.Acceptance

/-!
# Calls with one schema after another

The flags are never taken back, so a field that an earlier buffer had counts as
found for good. That changes the result of a call exactly when its own buffer
lacks a required field, every entry of it passes, and the earlier buffers had
whatever it lacks.
-/

namespace Ambry.Asf

open Foundation Stateful

namespace Schema

section
variable [Machine]

/-- The schema after the buffers of a list were read under it, one after the other. -/
def after (schema : Schema) : List Bytes → Schema
  | [] => schema
  | b :: bs => after ((deserialize b).exec schema).2 bs

def results (schema : Schema) : List Bytes → List (Outcome Map)
  | [] => []
  | b :: bs => schema.result b :: results ((deserialize b).exec schema).2 bs

/-- None of the calls is undefined, and the last gives what it gives without the others. -/
def Unaffected (schema : Schema) (bs : List Bytes) (b : Bytes) : Prop :=
  .error .undefined ∉ schema.results (bs ++ [b]) ∧ (schema.after bs).result b = schema.result b

variable (schema : Schema)

theorem after_marked (keys : List Bytes) (bs : List Bytes) : (schema.marked keys).after bs =
    schema.marked (keys ++ bs.flatMap fun b => (schema.scan b).2) := by
  induction bs generalizing keys with
  | nil => rw [after, List.flatMap_nil, List.append_nil]
  | cons b bs ih => rw [after, exec_deserialize, ih, List.flatMap_cons, List.append_assoc]

theorem result_marked (keys : List Bytes) (b : Bytes) : (schema.marked keys).result b =
    (schema.marked (keys ++ (schema.scan b).2)).verdict (schema.scan b).1 := by
  rw [result, exec_deserialize]

omit [Machine] in
theorem verdict_eq_undefined {result : Outcome Map} :
    schema.verdict result = .error .undefined ↔ result = .error .undefined := by
  cases result with
  | error e => rfl
  | ok map =>
    by_cases h : schema.complete
    · rw [verdict_of_complete schema h]
    · rw [verdict_of_not_complete schema h]
      exact ⟨nofun, nofun⟩

theorem undefined_mem_results (keys : List Bytes) (bs : List Bytes) :
    .error .undefined ∈ (schema.marked keys).results bs ↔
      ∃ c ∈ bs, (schema.scan c).1 = .error .undefined := by
  induction bs generalizing keys with
  | nil => simp [results]
  | cons b bs ih =>
    rw [results, exec_deserialize, List.mem_cons, ih, result_marked, List.exists_mem_cons_iff,
      eq_comm, verdict_eq_undefined]

/-- The memory of the schema, for any buffers. -/
theorem unaffected_iff (bs : List Bytes) (b : Bytes) : schema.Unaffected bs b ↔
    (∀ c ∈ bs ++ [b], (schema.scan c).1 ≠ .error .undefined) ∧
      ¬ ((∃ m, (schema.scan b).1 = .ok m) ∧
        (∃ key, schema.Requires key ∧ key ∉ (schema.scan b).2) ∧
        ∀ key, schema.Requires key →
          key ∈ (schema.scan b).2 ∨ ∃ c ∈ bs, key ∈ (schema.scan c).2) := by
  have hdefined := undefined_mem_results schema [] (bs ++ [b])
  have hafter := after_marked schema [] bs
  rw [List.nil_append] at hafter
  change .error .undefined ∈ schema.results (bs ++ [b]) ↔ _ at hdefined
  change schema.after bs = _ at hafter
  have hlater : (schema.marked ((bs.flatMap fun c => (schema.scan c).2) ++ (schema.scan b).2)).complete ↔
      ∀ key, schema.Requires key → key ∈ (schema.scan b).2 ∨ ∃ c ∈ bs, key ∈ (schema.scan c).2 := by
    simp only [complete_marked, List.mem_append, List.mem_flatMap, or_comm]
  have hfresh := complete_marked schema (schema.scan b).2
  rw [Unaffected, hdefined, hafter, result_marked, result_eq, ← hlater]
  refine and_congr ?_ ?_
  · rw [not_exists]
    exact forall_congr' fun c => not_and
  cases hscan : (schema.scan b).1 with
  | error e =>
    apply iff_of_true rfl
    rintro ⟨⟨m, hm⟩, _⟩
    cases hm
  | ok m =>
    by_cases hcomplete : (schema.marked (schema.scan b).2).complete
    · -- A buffer with every required field is read whatever the flags are.
      have hlater' := hlater.mpr fun key hkey => .inl (hfresh.mp hcomplete key hkey)
      rw [verdict_of_complete _ hcomplete, verdict_of_complete _ hlater']
      apply iff_of_true rfl
      rintro ⟨_, ⟨key, hkey, hmissing⟩, _⟩
      exact hmissing (hfresh.mp hcomplete key hkey)
    · rw [verdict_of_not_complete _ hcomplete]
      have hmissing : ∃ key, schema.Requires key ∧ key ∉ (schema.scan b).2 := by
        by_contra hnone
        exact hcomplete (hfresh.mpr fun key hkey => by_contra fun h => hnone ⟨key, hkey, h⟩)
      constructor
      · rintro heq ⟨_, _, hlater'⟩
        rw [verdict_of_complete _ hlater'] at heq
        cases heq
      · intro h
        exact verdict_of_not_complete _ (fun hlater' => h ⟨⟨m, rfl⟩, hmissing, hlater'⟩) m

/-- The memory of the schema: for any buffers, and for buffers written from maps that are
read back. -/
theorem schema_memory :
    (∀ bs b, schema.Unaffected bs b ↔
      (∀ c ∈ bs ++ [b], (schema.scan c).1 ≠ .error .undefined) ∧
        ¬ ((∃ m, (schema.scan b).1 = .ok m) ∧
          (∃ key, schema.Requires key ∧ key ∉ (schema.scan b).2) ∧
          ∀ key, schema.Requires key →
            key ∈ (schema.scan b).2 ∨ ∃ c ∈ bs, key ∈ (schema.scan c).2)) ∧
    ∀ (ms : List Map) (m : Map),
      (∀ c ∈ ms ++ [m], (Value.map c).wellFormed ∧ (Value.map c).noDouble) →
        (schema.Unaffected (ms.map serialize) (serialize m) ↔
          (∀ c ∈ ms ++ [m],
            ¬ (schema.opts.allowUndefined ∧ ∃ key, schema.Reaches c key ∧ key ∉ schema.fields)) ∧
          ¬ ((∀ e ∈ m, schema.Passes e) ∧
            (∃ key, schema.Requires key ∧ key ∉ m.map Prod.fst) ∧
            ∀ key, schema.Requires key →
              key ∈ m.map Prod.fst ∨ ∃ c ∈ ms, schema.Reaches c key)) := by
  refine ⟨unaffected_iff schema, fun ms m hms => ?_⟩
  have hscan : ∀ c ∈ ms ++ [m], schema.scan (serialize c) = schema.judge c := fun c hc =>
    scan_serialize schema (hms c hc).1 (hms c hc).2
  have hm := hscan m (List.mem_append_right ms List.mem_cons_self)
  have hmap : ms.map serialize ++ [serialize m] = (ms ++ [m]).map serialize := by
    rw [List.map_append, List.map_singleton]
  have hkeys : ∀ key, schema.Requires key → ∀ c ∈ ms ++ [m],
      (key ∈ (schema.scan (serialize c)).2 ↔ schema.Reaches c key) := by
    rintro key ⟨field, hfield, _⟩ c hc
    rw [hscan c hc]
    exact mem_judge_keys hfield
  rw [unaffected_iff, hmap, List.forall_mem_map]
  refine and_congr ?_ (not_congr ?_)
  · refine forall₂_congr fun c hc => ?_
    rw [hscan c hc, ne_eq, judge_undefined_iff]
  · rw [hm, judge_ok_iff]
    refine and_congr_right fun hpasses => ?_
    obtain ⟨m', hm', _⟩ := judge_of_passes hpasses
    rw [hm']
    refine and_congr_right fun _ => forall₂_congr fun key hkey => or_congr_right ?_
    simp only [List.mem_map, exists_exists_and_eq_and]
    refine exists_congr fun c => and_congr_right fun hc => ?_
    exact hkeys key hkey c (List.mem_append_left [m] hc)

end

section
attribute [local instance] littleEndian

/-- Two maps that both have the required field: the first leaves no mark on the second. -/
theorem schema_memory_adults :
    adults.Unaffected [serialize [([97], .u8 18)]] (serialize [([97], .u8 20)]) := by
  refine ((schema_memory adults).2 [[([97], .u8 18)]] [([97], .u8 20)] (by decide)).mpr ⟨?_, ?_⟩
  · rintro _ _ ⟨hallow, _⟩
    cases hallow
  · rintro ⟨_, ⟨key, ⟨field, hfield, hoptional, _⟩, hmissing⟩, _⟩
    rcases lookup_adults hfield with ⟨rfl, _⟩ | ⟨_, rfl⟩
    · exact hmissing List.mem_cons_self
    · cases hoptional

/-- The empty map lacks the required field, and is read after a map that had it. -/
theorem schema_memory_missing :
    (∀ c ∈ ([[([97], .u8 18)], []] : List Map), (Value.map c).wellFormed ∧ (Value.map c).noDouble) ∧
      adults.result (serialize []) = .error .nullopt ∧
      (adults.after [serialize [([97], .u8 18)]]).result (serialize []) = .ok [] := by
  refine ⟨by decide, rfl, rfl⟩

end

end Schema

end Ambry.Asf
