import Ambry.Lib.Types

/-!
# `lib/asf.hpp`: values

A value of the serialization format. A map is the list of its entries in the
order in which the unordered map yields them, so one map has many lists; `same`
is the equality of the source, which does not see the order. Doubles are their
64-bit patterns.
-/

namespace Ambry.Asf

inductive Value
  | i8 (n : Int8)
  | u8 (n : UInt8)
  | i16 (n : Int16)
  | u16 (n : UInt16)
  | i32 (n : Int32)
  | u32 (n : UInt32)
  | i64 (n : Int64)
  | u64 (n : UInt64)
  | double (bits : UInt64)
  | string (s : Bytes)
  | array (elems : List Value)
  | map (entries : List (Bytes × Value))

abbrev Map := List (Bytes × Value)

namespace Value

@[elab_as_elim]
theorem nestedInduction {P : Value → Prop} (i8 : ∀ n, P (.i8 n)) (u8 : ∀ n, P (.u8 n))
    (i16 : ∀ n, P (.i16 n)) (u16 : ∀ n, P (.u16 n)) (i32 : ∀ n, P (.i32 n))
    (u32 : ∀ n, P (.u32 n)) (i64 : ∀ n, P (.i64 n)) (u64 : ∀ n, P (.u64 n))
    (double : ∀ bits, P (.double bits)) (string : ∀ s, P (.string s))
    (array : ∀ elems, (∀ v ∈ elems, P v) → P (.array elems))
    (map : ∀ entries : Map, (∀ e ∈ entries, P e.2) → P (.map entries)) : ∀ v, P v
  | .i8 n => i8 n
  | .u8 n => u8 n
  | .i16 n => i16 n
  | .u16 n => u16 n
  | .i32 n => i32 n
  | .u32 n => u32 n
  | .i64 n => i64 n
  | .u64 n => u64 n
  | .double bits => double bits
  | .string s => string s
  | .array elems => array elems fun v _ =>
      nestedInduction i8 u8 i16 u16 i32 u32 i64 u64 double string array map v
  | .map entries => map entries fun e _ =>
      nestedInduction i8 u8 i16 u16 i32 u32 i64 u64 double string array map e.2
termination_by v => sizeOf v
decreasing_by
  · have hmem := List.sizeOf_lt_of_mem ‹v ∈ elems›
    simp only [Value.array.sizeOf_spec]
    omega
  · have hmem := List.sizeOf_lt_of_mem ‹e ∈ entries›
    obtain ⟨key, value⟩ := e
    simp only [Prod.mk.sizeOf_spec, Value.map.sizeOf_spec] at hmem ⊢
    omega

mutual

def noDouble : Value → Bool
  | .double _ => false
  | .array elems => noDoubleElems elems
  | .map entries => noDoubleEntries entries
  | _ => true

def noDoubleElems : List Value → Bool
  | [] => true
  | v :: vs => noDouble v && noDoubleElems vs

def noDoubleEntries : Map → Bool
  | [] => true
  | e :: es => noDoubleEntry e && noDoubleEntries es

def noDoubleEntry : Bytes × Value → Bool
  | (_, value) => noDouble value

end

theorem noDoubleElems_iff {vs : List Value} : noDoubleElems vs = true ↔ ∀ v ∈ vs, v.noDouble := by
  induction vs with
  | nil => simp [noDoubleElems]
  | cons v vs ih => simp [noDoubleElems, ih]

theorem noDoubleEntries_iff {es : Map} : noDoubleEntries es = true ↔ ∀ e ∈ es, e.2.noDouble := by
  induction es with
  | nil => simp [noDoubleEntries]
  | cons e es ih =>
    obtain ⟨key, value⟩ := e
    simp only [noDoubleEntries, noDoubleEntry, Bool.and_eq_true, ih, List.forall_mem_cons]

mutual

/-- Keys shorter than `2 ^ 16` bytes and distinct within a map, sizes below `2 ^ 31`. -/
def wellFormed : Value → Bool
  | .string s => s.length < 2 ^ 31
  | .array elems => elems.length < 2 ^ 31 && wellFormedElems elems
  | .map entries => entries.length < 2 ^ 31 && (entries.map Prod.fst).Nodup &&
      wellFormedEntries entries
  | _ => true

def wellFormedElems : List Value → Bool
  | [] => true
  | v :: vs => wellFormed v && wellFormedElems vs

def wellFormedEntries : Map → Bool
  | [] => true
  | e :: es => wellFormedEntry e && wellFormedEntries es

def wellFormedEntry : Bytes × Value → Bool
  | (key, value) => key.length < 2 ^ 16 && wellFormed value

end

theorem wellFormedElems_iff {vs : List Value} :
    wellFormedElems vs = true ↔ ∀ v ∈ vs, v.wellFormed := by
  induction vs with
  | nil => simp [wellFormedElems]
  | cons v vs ih => simp [wellFormedElems, ih]

theorem wellFormedEntries_iff {es : Map} :
    wellFormedEntries es = true ↔ ∀ e ∈ es, e.1.length < 2 ^ 16 ∧ e.2.wellFormed := by
  induction es with
  | nil => simp [wellFormedEntries]
  | cons e es ih =>
    obtain ⟨key, value⟩ := e
    simp only [wellFormedEntries, wellFormedEntry, Bool.and_eq_true, decide_eq_true_eq, ih,
      List.forall_mem_cons]

mutual

/-- Equality of values, maps compared as unordered maps. -/
def same : Value → Value → Bool
  | .i8 n, .i8 m => n = m
  | .u8 n, .u8 m => n = m
  | .i16 n, .i16 m => n = m
  | .u16 n, .u16 m => n = m
  | .i32 n, .i32 m => n = m
  | .u32 n, .u32 m => n = m
  | .i64 n, .i64 m => n = m
  | .u64 n, .u64 m => n = m
  | .double b, .double c => b = c
  | .string s, .string t => s = t
  | .array vs, .array ws => sameElems vs ws
  | .map es, .map fs => es.length = fs.length && sameEntries es fs
  | _, _ => false
termination_by structural v => v

def sameElems : List Value → List Value → Bool
  | [], [] => true
  | v :: vs, w :: ws => same v w && sameElems vs ws
  | _, _ => false
termination_by structural vs => vs

def sameEntries : Map → Map → Bool
  | [], _ => true
  | e :: es, fs => sameEntry e fs && sameEntries es fs
termination_by structural es => es

def sameEntry : Bytes × Value → Map → Bool
  | (key, value), fs => match fs.lookup key with
    | some w => same value w
    | none => false
termination_by structural e => e

end

theorem sameEntries_iff {es fs : Map} :
    sameEntries es fs = true ↔ ∀ e ∈ es, ∃ w, fs.lookup e.1 = some w ∧ e.2.same w := by
  induction es with
  | nil => simp [sameEntries]
  | cons e es ih =>
    obtain ⟨key, value⟩ := e
    rw [sameEntries, Bool.and_eq_true, ih, List.forall_mem_cons, sameEntry]
    cases fs.lookup key <;> simp

theorem sameEntries_cons {es fs : Map} {key : Bytes} {v w : Value} (hkey : ∀ e ∈ es, e.1 ≠ key)
    (h : sameEntries ((key, v) :: es) ((key, w) :: fs)) : v.same w ∧ sameEntries es fs := by
  have hentries := sameEntries_iff.mp h
  constructor
  · obtain ⟨u, hu, hvu⟩ := hentries (key, v) List.mem_cons_self
    rw [List.lookup_cons_self] at hu
    cases hu
    exact hvu
  · refine sameEntries_iff.mpr fun e he => ?_
    obtain ⟨u, hu, heu⟩ := hentries e (List.mem_cons_of_mem _ he)
    rw [List.lookup_cons, beq_eq_false_iff_ne.mpr (hkey e he)] at hu
    exact ⟨u, hu, heu⟩

theorem lookup_of_mem {es : Map} (hnodup : (es.map Prod.fst).Nodup) {e : Bytes × Value}
    (he : e ∈ es) : es.lookup e.1 = some e.2 := by
  obtain ⟨before, after, rfl⟩ := List.append_of_mem he
  refine List.lookup_eq_some_iff.mpr ⟨before, after, rfl, fun d hd => ?_⟩
  rw [List.map_append, List.map_cons] at hnodup
  have hne := (List.nodup_append.mp hnodup).2.2 d.1 (List.mem_map_of_mem hd) e.1 List.mem_cons_self
  simpa using hne.symm

theorem same_refl (v : Value) (hwf : v.wellFormed) : v.same v := by
  induction v using nestedInduction with
  | array vs ih =>
    simp only [wellFormed, Bool.and_eq_true] at hwf
    have hvs := wellFormedElems_iff.mp hwf.2
    rw [same]
    clear hwf
    induction vs with
    | nil => rfl
    | cons v vs ih' =>
      rw [sameElems, ih v List.mem_cons_self (hvs v List.mem_cons_self),
        ih' (fun w hw => ih w (List.mem_cons_of_mem v hw)) fun w hw => hvs w (List.mem_cons_of_mem v hw)]
      rfl
  | map es ih =>
    simp only [wellFormed, Bool.and_eq_true, decide_eq_true_eq] at hwf
    have hes := wellFormedEntries_iff.mp hwf.2
    simp only [same, decide_true, Bool.true_and]
    exact sameEntries_iff.mpr fun e he => ⟨e.2, lookup_of_mem hwf.1.2 he, ih e he (hes e he).2⟩
  | _ n => simp [same]

theorem sameElems_middle {pre pre' post post' : List Value} {v w : Value}
    (hlen : pre.length = pre'.length) (h : sameElems (pre ++ v :: post) (pre' ++ w :: post')) :
    v.same w := by
  induction pre generalizing pre' with
  | nil =>
    obtain rfl := List.length_eq_zero_iff.mp hlen.symm
    rw [List.nil_append, List.nil_append, sameElems, Bool.and_eq_true] at h
    exact h.1
  | cons u pre ih =>
    obtain ⟨u', pre', rfl⟩ := List.exists_cons_of_length_eq_add_one hlen.symm
    rw [List.cons_append, List.cons_append, sameElems, Bool.and_eq_true] at h
    exact ih (Nat.succ_inj.mp hlen) h.2

end Value

end Ambry.Asf
