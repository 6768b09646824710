import Mathlib.Data.List.AList
import Mathlib.Data.List.TakeWhile
import Ambry.Aci.Types
import Ambry.Foundation.Lookup

/-!
# `server/flags.hpp`: the command line

The flag that the lookup table points to is known by its place in the list of
flags, which only grows. A separator that is not longer than the prefix counts with
its first character only; a longer one is compared by positions that count from the
front of the argument, and reads past the end of an argument that is shorter.
-/

namespace Ambry.Flags

open Foundation Aci

/-- `double`, as far as the program uses it. -/
class Double (ν : Type) where
  /-- `std::from_chars`: the number at the front of a text -/
  fromChars : Bytes → Option ν
  ofNat : Nat → ν
  /-- no result for a number that is out of the range of `int` -/
  toInt : ν → Option Int

inductive FlagType
  | String | Number | Bool
  deriving DecidableEq, Repr

structure Result where
  flagId : Bytes := []
  error : Bytes := []
  deriving DecidableEq, Repr

def Result.ok (r : Result) : Bool := r.error.isEmpty

inductive FlagData (ν : Type)
  | string (value : Bytes)
  | number (value : ν)
  | bool (value : Bool)
  deriving DecidableEq, Repr

structure Flag (ν : Type) where
  name : Bytes
  data : FlagData ν
  type : FlagType := .String
  aliases : List Bytes := []
  triggered : Bool := false
  deriving DecidableEq, Repr

structure Options where
  flagPrefix : Bytes := str "-"
  separator : Bytes := str "="
  strictFlags : Bool := true

structure Parser (ν : Type) where
  flags : List (Flag ν) := []
  table : AList fun _ : Bytes => Nat := ∅
  options : Options
  args : List Bytes
  flagless : List Bytes := []

/-- `unordered_map::emplace`: a key that is there keeps its flag. -/
def emplace (table : AList fun _ : Bytes => Nat) (key : Bytes) (flag : Nat) :
    AList fun _ : Bytes => Nat :=
  if key ∈ table then table else table.insert key flag

/-- The inner loop of `parse_flag`: `str` against the separator, from the position on. -/
def separates (text separator : Bytes) (i : Nat) : Option Bool :=
  (List.range' i (separator.length - i)).foldlM
    (fun found j => do return found && (← text[j]?) == (← separator[j]?)) true

/-- The outer loop, which is behind the text when its turns are over. -/
def parseFlagLoop (text separator : Bytes) : (turns i : Nat) → Option (Nat × Bool)
  | 0, _ => some (text.length, false)
  | turns + 1, i =>
    match text[i]? with
    | none => some (text.length, false)
    | some c => do
      if c = (← separator.head?) then
        -- the inner loop moves both positions to the end of the separator
        let j := max i separator.length
        if ← separates text separator i then return (j, true)
        parseFlagLoop text separator turns (j + 1)
      else parseFlagLoop text separator turns (i + 1)

namespace Parser

variable {ν : Type}

def set (flag : Flag ν) (p : Parser ν) : Parser ν :=
  let f := p.flags.length
  { p with
    flags := p.flags ++ [flag]
    table := flag.aliases.foldl (fun table id => emplace table id f) (emplace p.table flag.name f) }

def get (p : Parser ν) (id : Bytes) : Option Nat := p.table.lookup id

def isFlag (p : Parser ν) (text : Bytes) : Bool :=
  p.options.flagPrefix.length < text.length && p.options.flagPrefix.isPrefixOf text

def parseFlag (p : Parser ν) (text : Bytes) (offset : Nat) : Option (Nat × Bool) :=
  parseFlagLoop text p.options.separator (text.length - offset) offset

def put (p : Parser ν) (f : Nat) (flag : Flag ν) : Parser ν := { p with flags := p.flags.set f flag }

def keep (p : Parser ν) (arg : Bytes) : Parser ν := { p with flagless := p.flagless ++ [arg] }

variable [Double ν]

/-- The flag with the value; the switch has no case for a flag of type `Bool`. -/
def setValue (value : Bytes) (flag : Flag ν) : Option (Flag ν) :=
  match flag.type with
  | .String => some { flag with data := .string value, triggered := true }
  | .Number =>
    (Double.fromChars value).map fun n => { flag with data := .number n, triggered := true }
  | .Bool => some { flag with triggered := true }

/-- The loop of `parse`. -/
def parseLoop : List Bytes → Parser ν → Option (Result × Parser ν)
  | [], p => some ({}, p)
  | arg :: args, p =>
    if p.isFlag arg then do
      let prefixEnd := p.options.flagPrefix.length
      let (sepStart, foundSep) ← p.parseFlag arg prefixEnd
      let id := (arg.drop prefixEnd).take (sepStart - prefixEnd)
      match p.get id with
      | none =>
        if p.options.strictFlags then return ({ flagId := id, error := str "invalid flag id used" }, p)
        parseLoop args p
      | some f =>
        let flag ← p.flags[f]?
        if flag.type = .Bool then
          parseLoop args (p.put f { flag with data := .bool true, triggered := true })
        else
          let failResult : Result := { flagId := id, error := str "could not set flag value" }
          if foundSep && sepStart + 1 < arg.length then
            match setValue (arg.drop (sepStart + 1)) flag with
            | none => return (failResult, p)
            | some flag => parseLoop args (p.put f flag)
          else
            match args with
            | [] => return (failResult, p)
            | value :: args =>
              match setValue value flag with
              | none => return (failResult, p)
              | some flag => parseLoop args (p.put f flag)
    else parseLoop args (p.keep arg)

def parse (p : Parser ν) : Option (Result × Parser ν) := parseLoop p.args p

end Parser

/-! ### What a command line is made of -/

/-- The separator counts with its first character only. -/
structure Options.Plain (o : Options) (sep : UInt8) : Prop where
  head_eq : o.separator.head? = some sep
  length_le : o.separator.length ≤ o.flagPrefix.length

def Options.word (o : Options) (id tail : Bytes) : Bytes := o.flagPrefix ++ id ++ tail

/-- An id up to the first separator, and what follows it. -/
structure Splits (sep : UInt8) (id tail : Bytes) : Prop where
  not_mem : sep ∉ id
  head_eq : ∀ c ∈ tail.head?, c = sep
  ne_nil : id ++ tail ≠ []

/-- What one flag or one other argument takes of a command line. -/
inductive Item
  | positional (arg : Bytes)
  | ignored (id tail : Bytes)
  | toggle (id tail : Bytes)
  | inline (id value : Bytes)
  | separate (id tail value : Bytes)
  deriving DecidableEq, Repr

def Item.render (o : Options) (sep : UInt8) : Item → List Bytes
  | .positional arg => [arg]
  | .ignored id tail => [o.word id tail]
  | .toggle id tail => [o.word id tail]
  | .inline id value => [o.word id (sep :: value)]
  | .separate id tail value => [o.word id tail, value]

section
variable {ν : Type} [Double ν]

/-- What a text is as the value of a flag. -/
def FlagType.reads (value : Bytes) : FlagType → Option (FlagData ν)
  | .String => some (.string value)
  | .Number => (Double.fromChars value).map .number
  | .Bool => none

namespace Parser

omit [Double ν] in
def typeOf (p : Parser ν) (id : Bytes) : Option FlagType :=
  (p.get id).bind fun f => (p.flags[f]?).map Flag.type

/-- The text as a value of the flag. -/
def valueOf (p : Parser ν) (id value : Bytes) : Option (FlagData ν) :=
  (p.typeOf id).bind (FlagType.reads value)

def store (p : Parser ν) (f : Nat) (data : FlagData ν) : Parser ν :=
  { p with flags := p.flags.modify f fun flag => { flag with data, triggered := true } }

end Parser

namespace Item

inductive Valid (p : Parser ν) (sep : UInt8) : Item → Prop
  | positional {arg : Bytes} (h : p.isFlag arg = false) : Valid p sep (.positional arg)
  | ignored {id tail : Bytes} (h : Splits sep id tail) (hget : p.get id = none)
      (hstrict : p.options.strictFlags = false) : Valid p sep (.ignored id tail)
  | toggle {id tail : Bytes} (h : Splits sep id tail) (htype : p.typeOf id = some .Bool) :
      Valid p sep (.toggle id tail)
  | inline {id value : Bytes} {data : FlagData ν} (h : sep ∉ id) (hne : value ≠ [])
      (hvalue : p.valueOf id value = some data) : Valid p sep (.inline id value)
  | separate {id tail value : Bytes} {data : FlagData ν} (h : Splits sep id tail)
      (htail : tail.length ≤ 1) (hvalue : p.valueOf id value = some data) :
      Valid p sep (.separate id tail value)

/-- The flag that is set, and to what. -/
def sets (p : Parser ν) : Item → Option (Nat × FlagData ν)
  | .positional _ => none
  | .ignored _ _ => none
  | .toggle id _ => (p.get id).map fun f => (f, .bool true)
  | .inline id value => do return (← p.get id, ← p.valueOf id value)
  | .separate id _ value => do return (← p.get id, ← p.valueOf id value)

def kept : Item → Option Bytes
  | .positional arg => some arg
  | _ => none

def apply (p : Parser ν) (item : Item) : Parser ν :=
  let p' := (item.sets p).elim p fun s => p.store s.1 s.2
  item.kept.elim p' p'.keep

end Item

/-- The front of a command line that is no item, with the error for it. -/
inductive Stuck (p : Parser ν) (sep : UInt8) : List Bytes → Result → Prop
  | unknown {id tail : Bytes} {args : List Bytes} (h : Splits sep id tail) (hget : p.get id = none)
      (hstrict : p.options.strictFlags = true) :
      Stuck p sep (p.options.word id tail :: args) ⟨id, str "invalid flag id used"⟩
  | missing {id tail : Bytes} {t : FlagType} (h : Splits sep id tail) (htail : tail.length ≤ 1)
      (htype : p.typeOf id = some t) (ht : t ≠ .Bool) :
      Stuck p sep [p.options.word id tail] ⟨id, str "could not set flag value"⟩
  | inline {id value : Bytes} {args : List Bytes} (h : sep ∉ id) (hne : value ≠ [])
      (htype : p.typeOf id = some .Number) (hvalue : p.valueOf id value = none) :
      Stuck p sep (p.options.word id (sep :: value) :: args) ⟨id, str "could not set flag value"⟩
  | separate {id tail value : Bytes} {args : List Bytes} (h : Splits sep id tail)
      (htail : tail.length ≤ 1) (htype : p.typeOf id = some .Number)
      (hvalue : p.valueOf id value = none) :
      Stuck p sep (p.options.word id tail :: value :: args) ⟨id, str "could not set flag value"⟩

end

/-! ### A word is read up to the first separator -/

section
variable {ν : Type} {p : Parser ν} {sep : UInt8} {id tail : Bytes}

theorem Splits.of_cons {value : Bytes} (h : sep ∉ id) : Splits sep id (sep :: value) where
  not_mem := h
  head_eq _ hc := (Option.some.inj hc).symm
  ne_nil := List.append_ne_nil_of_right_ne_nil _ (List.cons_ne_nil _ _)

theorem Splits.of_nil (h : sep ∉ id) (hne : id ≠ []) : Splits sep id [] where
  not_mem := h
  head_eq _ hc := by cases hc
  ne_nil := List.append_ne_nil_of_left_ne_nil hne _

theorem Splits.tail_eq (h : Splits sep id tail) : tail = [] ∨ ∃ value, tail = sep :: value := by
  cases tail with
  | nil => exact .inl rfl
  | cons c value =>
    obtain rfl := h.head_eq c rfl
    exact .inr ⟨value, rfl⟩

theorem parseFlagLoop_eq {separator : Bytes} (hhead : separator.head? = some sep)
    (hnot : sep ∉ id) (htail : ∀ c ∈ tail.head?, c = sep) :
    ∀ {front : Bytes}, separator.length ≤ front.length →
      parseFlagLoop (front ++ (id ++ tail)) separator (id ++ tail).length front.length =
        some (front.length + id.length, !tail.isEmpty) := by
  induction id with
  | nil =>
    intro front hle
    cases tail with
    | nil => simp [parseFlagLoop]
    | cons c value =>
      obtain rfl := htail c rfl
      have hzero : separator.length - front.length = 0 := by omega
      simp [parseFlagLoop, hhead, separates, hzero, max_eq_left hle]
  | cons c id ih =>
    intro front hle
    have hne : c ≠ sep := fun h => hnot (h ▸ List.mem_cons_self)
    have hle' : separator.length ≤ (front ++ [c]).length := by
      rw [List.length_append]
      omega
    have hnext := ih (fun h => hnot (List.mem_cons_of_mem _ h)) hle'
    simp only [List.append_assoc, List.singleton_append, List.length_append,
      List.length_singleton] at hnext
    simp only [List.cons_append, List.length_cons, parseFlagLoop, List.length_append]
    rw [List.getElem?_append_right (le_refl _), Nat.sub_self, List.getElem?_cons_zero]
    simp only [hhead, Option.bind_eq_bind, Option.bind_some, if_neg hne]
    rw [hnext]
    congr 2
    omega

theorem parseFlag_word (ho : p.options.Plain sep) (h : Splits sep id tail) :
    p.parseFlag (p.options.word id tail) p.options.flagPrefix.length =
      some (p.options.flagPrefix.length + id.length, !tail.isEmpty) := by
  have hlen : (p.options.word id tail).length - p.options.flagPrefix.length =
      (id ++ tail).length := by
    simp [Options.word]
  rw [Parser.parseFlag, hlen, Options.word, List.append_assoc]
  exact parseFlagLoop_eq ho.head_eq h.not_mem h.head_eq ho.length_le

theorem isFlag_word (h : Splits sep id tail) : p.isFlag (p.options.word id tail) = true := by
  have hpos := List.length_pos_iff.mpr h.ne_nil
  have hprefix : p.options.flagPrefix <+: p.options.word id tail :=
    ⟨id ++ tail, by rw [Options.word, List.append_assoc]⟩
  rw [Parser.isFlag, Bool.and_eq_true, decide_eq_true_iff, List.isPrefixOf_iff_prefix]
  refine ⟨?_, hprefix⟩
  rw [Options.word, List.append_assoc, List.length_append]
  omega

theorem exists_word {arg : Bytes} (h : p.isFlag arg = true) (sep : UInt8) :
    ∃ id tail, Splits sep id tail ∧ arg = p.options.word id tail := by
  rw [Parser.isFlag, Bool.and_eq_true, decide_eq_true_iff, List.isPrefixOf_iff_prefix] at h
  obtain ⟨hlt, rest, rfl⟩ := h
  refine ⟨rest.takeWhile (· != sep), rest.dropWhile (· != sep), ⟨?_, ?_, ?_⟩, ?_⟩
  · intro hmem
    simpa using List.mem_takeWhile_imp hmem
  · intro c hc
    have hfirst := List.head?_dropWhile_not (· != sep) rest
    rw [hc] at hfirst
    simpa using hfirst
  · rw [List.takeWhile_append_dropWhile]
    rintro rfl
    simp at hlt
  · rw [Options.word, List.append_assoc, List.takeWhile_append_dropWhile]

variable [Double ν] {args : List Bytes}

/-- The turn of the loop at a word. -/
theorem parseLoop_word (ho : p.options.Plain sep) (h : Splits sep id tail) :
    Parser.parseLoop (p.options.word id tail :: args) p =
      match p.get id with
      | none =>
        if p.options.strictFlags then some (⟨id, str "invalid flag id used"⟩, p)
        else Parser.parseLoop args p
      | some f => (p.flags[f]?).bind fun flag =>
        if flag.type = .Bool then
          Parser.parseLoop args (p.put f { flag with data := .bool true, triggered := true })
        else if 1 < tail.length then
          match Parser.setValue tail.tail flag with
          | none => some (⟨id, str "could not set flag value"⟩, p)
          | some flag => Parser.parseLoop args (p.put f flag)
        else
          match args with
          | [] => some (⟨id, str "could not set flag value"⟩, p)
          | value :: args =>
            match Parser.setValue value flag with
            | none => some (⟨id, str "could not set flag value"⟩, p)
            | some flag => Parser.parseLoop args (p.put f flag) := by
  have hid : ((p.options.word id tail).drop p.options.flagPrefix.length).take
      (p.options.flagPrefix.length + id.length - p.options.flagPrefix.length) = id := by
    rw [Options.word, List.append_assoc, List.drop_left, Nat.add_sub_cancel_left, List.take_left]
  have hvalue : (p.options.word id tail).drop (p.options.flagPrefix.length + id.length + 1) =
      tail.tail := by
    rw [Options.word, ← List.length_append, ← List.drop_drop, List.drop_left, List.drop_one]
  have hcond : ((!tail.isEmpty) && decide (p.options.flagPrefix.length + id.length + 1 <
      (p.options.word id tail).length)) = decide (1 < tail.length) := by
    cases tail with
    | nil => rfl
    | cons c value =>
      simp only [Options.word, List.length_append, List.length_cons, List.isEmpty_cons]
      grind
  rw [Parser.parseLoop, if_pos (isFlag_word h)]
  simp only [parseFlag_word ho h, Option.bind_eq_bind, Option.bind_some, hid, hvalue, hcond,
    decide_eq_true_eq]
  cases p.get id with
  | none => cases p.options.strictFlags <;> rfl
  | some f => rfl

end

/-! ### What an item does -/

section
variable {ν : Type} {p q : Parser ν} {sep : UInt8} {id value : Bytes} {f : Nat} {flag : Flag ν}
  {t : FlagType} {data : FlagData ν}

theorem Parser.typeOf_eq_some :
    p.typeOf id = some t ↔ ∃ f flag, p.get id = some f ∧ p.flags[f]? = some flag ∧ flag.type = t := by
  simp [Parser.typeOf, Option.bind_eq_some_iff]

/-- The table points into the list of flags. -/
def Parser.Wf (p : Parser ν) : Prop := ∀ id f, p.get id = some f → f < p.flags.length

theorem Parser.Wf.typeOf (h : p.Wf) (hget : p.get id = some f) :
    ∃ flag, p.flags[f]? = some flag ∧ p.typeOf id = some flag.type := by
  have hflag := List.getElem?_eq_getElem (h id f hget)
  exact ⟨_, hflag, Parser.typeOf_eq_some.mpr ⟨f, _, hget, hflag, rfl⟩⟩

theorem Parser.put_eq_store (h : p.flags[f]? = some flag) (data : FlagData ν) :
    p.put f { flag with data, triggered := true } = p.store f data := by
  rw [Parser.put, Parser.store, List.modify_eq_set_getElem?, h]
  rfl

/-- What no item changes: the options, the table, and the types of the flags. -/
structure Alike (p q : Parser ν) : Prop where
  options : q.options = p.options
  table : q.table = p.table
  types : q.flags.map Flag.type = p.flags.map Flag.type

theorem Alike.refl (p : Parser ν) : Alike p p := ⟨rfl, rfl, rfl⟩

theorem Alike.trans {r : Parser ν} (h : Alike p q) (h' : Alike q r) : Alike p r :=
  ⟨h'.options.trans h.options, h'.table.trans h.table, h'.types.trans h.types⟩

theorem Alike.get (h : Alike p q) (id : Bytes) : q.get id = p.get id := by
  rw [Parser.get, Parser.get, h.table]

theorem Alike.typeOf (h : Alike p q) (id : Bytes) : q.typeOf id = p.typeOf id := by
  simp only [Parser.typeOf, h.get, ← List.getElem?_map, h.types]

theorem Alike.isFlag (h : Alike p q) (arg : Bytes) : q.isFlag arg = p.isFlag arg := by
  rw [Parser.isFlag, Parser.isFlag, h.options]

theorem Alike.store : Alike p (p.store f data) where
  options := rfl
  table := rfl
  types := by
    apply List.ext_getElem?
    intro i
    simp only [Parser.store, List.getElem?_map, List.getElem?_modify]
    cases p.flags[i]? <;> simp [apply_ite]

variable [Double ν] {item item' : Item} {items : List Item} {args rest : List Bytes} {r : Result}

theorem setValue_eq (h : flag.type ≠ .Bool) :
    Parser.setValue value flag =
      (flag.type.reads value).map fun data => { flag with data, triggered := true } := by
  unfold Parser.setValue FlagType.reads
  cases hty : flag.type with
  | String => rfl
  | Number => cases (Double.fromChars value : Option ν) <;> rfl
  | Bool => exact absurd hty h

theorem Alike.valueOf (h : Alike p q) (id value : Bytes) : q.valueOf id value = p.valueOf id value := by
  rw [Parser.valueOf, Parser.valueOf, h.typeOf]

theorem Alike.sets (h : Alike p q) : item.sets q = item.sets p := by
  cases item <;> simp only [Item.sets, h.get, h.valueOf]

theorem Item.apply_alike : Alike p (item.apply p) := by
  have hset : Alike p ((item.sets p).elim p fun s => p.store s.1 s.2) := by
    cases item.sets p with
    | none => exact .refl p
    | some s => exact .store
  unfold Item.apply
  cases item.kept with
  | none => exact hset
  | some arg => exact ⟨hset.options, hset.table, hset.types⟩

theorem Alike.foldl : Alike p (items.foldl Item.apply p) := by
  induction items generalizing p with
  | nil => exact .refl p
  | cons item items ih => exact Item.apply_alike.trans ih

theorem Alike.valid (h : Alike p q) (hv : item.Valid p sep) : item.Valid q sep := by
  cases hv with
  | positional hpos => exact .positional ((h.isFlag _).trans hpos)
  | ignored hs hget hstrict =>
    exact .ignored hs ((h.get _).trans hget) (h.options ▸ hstrict)
  | toggle hs htype => exact .toggle hs ((h.typeOf _).trans htype)
  | inline hs hne hvalue => exact .inline hs hne ((h.valueOf _ _).trans hvalue)
  | separate hs htail hvalue => exact .separate hs htail ((h.valueOf _ _).trans hvalue)

theorem Parser.valueOf_eq_some (h : p.valueOf id value = some data) :
    ∃ f flag, p.get id = some f ∧ p.flags[f]? = some flag ∧ flag.type ≠ .Bool ∧
      flag.type.reads value = some data := by
  obtain ⟨t, htype, hreads⟩ := Option.bind_eq_some_iff.mp h
  obtain ⟨f, flag, hget, hflag, rfl⟩ := Parser.typeOf_eq_some.mp htype
  refine ⟨f, flag, hget, hflag, ?_, hreads⟩
  intro hbool
  rw [hbool] at hreads
  cases hreads

/-- The loop takes an item in one turn. -/
theorem parseLoop_item (ho : p.options.Plain sep) (hv : item.Valid p sep) :
    Parser.parseLoop (item.render p.options sep ++ args) p =
      Parser.parseLoop args (item.apply p) := by
  cases hv with
  | positional hpos =>
    simp [Item.render, Item.apply, Item.sets, Item.kept, Parser.parseLoop, hpos]
  | ignored hs hget hstrict =>
    simp [Item.render, Item.apply, Item.sets, Item.kept, parseLoop_word ho hs, hget, hstrict]
  | toggle hs htype =>
    obtain ⟨f, flag, hget, hflag, hbool⟩ := Parser.typeOf_eq_some.mp htype
    simp only [Item.render, List.singleton_append]
    rw [parseLoop_word ho hs, hget]
    simp only [hflag, Option.bind_some, if_pos hbool, Parser.put_eq_store hflag]
    simp [Item.apply, Item.sets, Item.kept, hget]
  | inline hs hne hvalue =>
    obtain ⟨f, flag, hget, hflag, hbool, hreads⟩ := Parser.valueOf_eq_some hvalue
    have hlong := Nat.succ_lt_succ (List.length_pos_iff.mpr hne)
    simp only [Item.render, List.singleton_append]
    rw [parseLoop_word ho (.of_cons hs), hget]
    simp [Item.apply, Item.sets, Item.kept, hget, hflag, hbool, hvalue, hlong, setValue_eq hbool,
      hreads, Parser.put_eq_store hflag]
  | separate hs htail hvalue =>
    obtain ⟨f, flag, hget, hflag, hbool, hreads⟩ := Parser.valueOf_eq_some hvalue
    simp only [Item.render, List.cons_append, List.nil_append]
    rw [parseLoop_word ho hs, hget]
    simp [Item.apply, Item.sets, Item.kept, hget, hflag, hbool, hvalue, htail.not_gt,
      setValue_eq hbool, hreads, Parser.put_eq_store hflag]

theorem parseLoop_items (ho : p.options.Plain sep) (hv : ∀ item ∈ items, item.Valid p sep) :
    Parser.parseLoop (items.flatMap (Item.render p.options sep) ++ args) p =
      Parser.parseLoop args (items.foldl Item.apply p) := by
  induction items generalizing p with
  | nil => rfl
  | cons item items ih =>
    have halike : Alike p (item.apply p) := Item.apply_alike
    have hnext := ih (p := item.apply p) (halike.options ▸ ho)
      fun other hmem => halike.valid (hv other (List.mem_cons_of_mem _ hmem))
    rw [List.flatMap_cons, List.append_assoc, parseLoop_item ho (hv item List.mem_cons_self),
      List.foldl_cons, ← hnext, halike.options]

theorem parseLoop_stuck (ho : p.options.Plain sep) (h : Stuck p sep args r) :
    Parser.parseLoop args p = some (r, p) := by
  have hnumber {id value : Bytes} (htype : p.typeOf id = some .Number)
      (hvalue : p.valueOf id value = none) :
      ∃ f flag, p.get id = some f ∧ p.flags[f]? = some flag ∧ flag.type ≠ .Bool ∧
        Parser.setValue value flag = none := by
    obtain ⟨f, flag, hget, hflag, ht⟩ := Parser.typeOf_eq_some.mp htype
    have hbool : flag.type ≠ .Bool := by
      rw [ht]
      decide
    refine ⟨f, flag, hget, hflag, hbool, ?_⟩
    rw [Parser.valueOf, htype, Option.bind_some] at hvalue
    rw [setValue_eq hbool, ht, hvalue, Option.map_none]
  cases h with
  | unknown hs hget hstrict => simp [parseLoop_word ho hs, hget, hstrict]
  | missing hs htail htype ht =>
    obtain ⟨f, flag, hget, hflag, rfl⟩ := Parser.typeOf_eq_some.mp htype
    rw [parseLoop_word ho hs, hget]
    simp [hflag, ht, htail.not_gt]
  | inline hs hne htype hvalue =>
    obtain ⟨f, flag, hget, hflag, hbool, hset⟩ := hnumber htype hvalue
    rw [parseLoop_word ho (.of_cons hs), hget]
    simp [hflag, hbool, hset, List.length_pos_iff.mpr hne]
  | separate hs htail htype hvalue =>
    obtain ⟨f, flag, hget, hflag, hbool, hset⟩ := hnumber htype hvalue
    rw [parseLoop_word ho hs, hget]
    simp [hflag, hbool, hset, htail.not_gt]

/-- An argument list that is not at its end begins with an item, or is stuck. -/
theorem exists_item (hp : p.Wf) (sep : UInt8) (hne : args ≠ []) :
    (∃ (item : Item) (rest : List Bytes), item.Valid p sep ∧ args = item.render p.options sep ++ rest) ∨
      ∃ r, Stuck p sep args r := by
  obtain ⟨arg, args, rfl⟩ := List.exists_cons_of_ne_nil hne
  by_cases hflag : p.isFlag arg = true
  swap
  · exact .inl ⟨.positional arg, args, .positional (Bool.eq_false_iff.mpr hflag), rfl⟩
  obtain ⟨id, tail, hs, rfl⟩ := exists_word hflag sep
  cases hget : p.get id with
  | none =>
    cases hstrict : p.options.strictFlags with
    | false => exact .inl ⟨.ignored id tail, args, .ignored hs hget hstrict, rfl⟩
    | true => exact .inr ⟨_, .unknown hs hget hstrict⟩
  | some f =>
    obtain ⟨flag, hflag, htype⟩ := hp.typeOf hget
    by_cases hbool : flag.type = .Bool
    · exact .inl ⟨.toggle id tail, args, .toggle hs (hbool ▸ htype), rfl⟩
    have hnumber {value : Bytes} (hvalue : p.valueOf id value = none) :
        p.typeOf id = some .Number := by
      rw [Parser.valueOf, htype, Option.bind_some] at hvalue
      cases hty : flag.type with
      | String =>
        rw [hty] at hvalue
        cases hvalue
      | Number => rw [htype, hty]
      | Bool => exact absurd hty hbool
    by_cases hlong : 1 < tail.length
    · obtain rfl | ⟨value, rfl⟩ := hs.tail_eq
      · exact absurd hlong (Nat.not_lt_zero 1)
      have hvalue_ne : value ≠ [] := by
        rintro rfl
        exact absurd hlong (Nat.lt_irrefl 1)
      cases hvalue : p.valueOf id value with
      | none => exact .inr ⟨_, .inline hs.not_mem hvalue_ne (hnumber hvalue) hvalue⟩
      | some data =>
        exact .inl ⟨.inline id value, args, .inline hs.not_mem hvalue_ne hvalue, rfl⟩
    · have hshort := Nat.le_of_not_lt hlong
      cases args with
      | nil => exact .inr ⟨_, .missing hs hshort htype hbool⟩
      | cons value args =>
        cases hvalue : p.valueOf id value with
        | none => exact .inr ⟨_, .separate hs hshort (hnumber hvalue) hvalue⟩
        | some data => exact .inl ⟨.separate id tail value, args, .separate hs hshort hvalue, rfl⟩

/-! ### The whole command line -/

/-- The values that the items give to a flag, in their order. -/
def assigned (p : Parser ν) (f : Nat) (items : List Item) : List (FlagData ν) :=
  items.filterMap fun item => (item.sets p).bind fun s => if s.1 = f then some s.2 else none

omit [Double ν] in
/-- The last value counts. -/
def Flag.after (flag : Flag ν) (values : List (FlagData ν)) : Flag ν :=
  values.getLast?.elim flag fun data => { flag with data, triggered := true }

/-- What the items of a command line leave behind. -/
def Parser.after (p : Parser ν) (items : List Item) : Parser ν :=
  { p with
    flags := p.flags.mapIdx fun f flag => flag.after (assigned p f items)
    flagless := p.flagless ++ items.filterMap Item.kept }

omit [Double ν] in
theorem Flag.after_concat (values : List (FlagData ν)) :
    flag.after (values ++ [data]) = { flag.after values with data, triggered := true } := by
  rw [Flag.after, Flag.after, List.getLast?_concat]
  cases values.getLast? <;> rfl

theorem assigned_concat :
    assigned p f (items ++ [item]) = assigned p f items ++
      (((item.sets p).bind fun s => if s.1 = f then some s.2 else none).toList) := by
  rw [assigned, List.filterMap_append, List.filterMap_cons, List.filterMap_nil]
  cases (item.sets p).bind fun s => if s.1 = f then some s.2 else none <;> rfl

theorem Parser.after_store {s : Nat × FlagData ν} (h : item.sets p = some s) :
    ((p.after items).store s.1 s.2).flags = (p.after (items ++ [item])).flags := by
  apply List.ext_getElem?
  intro i
  simp only [Parser.store, Parser.after, List.getElem?_modify, List.getElem?_mapIdx,
    assigned_concat, h, Option.bind_some]
  cases p.flags[i]? with
  | none => rfl
  | some flag =>
    by_cases hi : s.1 = i
    · simp [hi, Flag.after_concat]
    · simp [hi]

theorem foldl_apply : items.foldl Item.apply p = p.after items := by
  induction items using List.reverseRecOn with
  | nil =>
    have hflags : p.flags.mapIdx (fun f flag => flag.after (assigned p f [])) = p.flags := by
      apply List.ext_getElem?
      intro i
      rw [List.getElem?_mapIdx]
      cases p.flags[i]? <;> rfl
    rw [Parser.after, hflags, List.filterMap_nil, List.append_nil]
    rfl
  | append_singleton items item ih =>
    have halike : Alike p (items.foldl Item.apply p) := Alike.foldl
    have hset : (item.sets p).elim (p.after items) (fun s => (p.after items).store s.1 s.2) =
        { p.after (items ++ [item]) with flagless := (p.after items).flagless } := by
      cases hsets : item.sets p with
      | none => simp [Parser.after, assigned_concat, hsets]
      | some s =>
        exact congrArg (fun flags => { p.after items with flags }) (Parser.after_store hsets)
    rw [List.foldl_append, List.foldl_cons, List.foldl_nil, Item.apply, halike.sets, ih, hset]
    cases hkept : item.kept <;> simp [Parser.after, Parser.keep, List.filterMap_append, hkept]

/-- A command line as items and a rest that is no item, and what `parse` makes of it. -/
structure Reading (p : Parser ν) (sep : UInt8) (r : Result) (q : Parser ν) (items : List Item)
    (rest : List Bytes) : Prop where
  args_eq : p.args = items.flatMap (Item.render p.options sep) ++ rest
  valid : ∀ item ∈ items, item.Valid p sep
  rest : (rest = [] ∧ r = {}) ∨ Stuck p sep rest r
  parser : q = p.after items

theorem Alike.stuck (h : Alike p q) (hs : Stuck p sep rest r) : Stuck q sep rest r := by
  cases hs with
  | unknown hs hget hstrict =>
    rw [← h.options]
    exact .unknown hs ((h.get _).trans hget) (h.options ▸ hstrict)
  | missing hs htail htype ht =>
    rw [← h.options]
    exact .missing hs htail ((h.typeOf _).trans htype) ht
  | inline hs hne htype hvalue =>
    rw [← h.options]
    exact .inline hs hne ((h.typeOf _).trans htype) ((h.valueOf _ _).trans hvalue)
  | separate hs htail htype hvalue =>
    rw [← h.options]
    exact .separate hs htail ((h.typeOf _).trans htype) ((h.valueOf _ _).trans hvalue)

theorem Reading.parse (ho : p.options.Plain sep) (h : Reading p sep r q items rest) :
    p.parse = some (r, q) := by
  have halike : Alike p (items.foldl Item.apply p) := Alike.foldl
  rw [Parser.parse, h.args_eq, parseLoop_items ho h.valid, h.parser, ← foldl_apply]
  obtain ⟨rfl, rfl⟩ | hstuck := h.rest
  · rfl
  · exact parseLoop_stuck (halike.options ▸ ho) (halike.stuck hstuck)

theorem exists_items (hp : p.Wf) (sep : UInt8) (args : List Bytes) :
    ∃ (items : List Item) (rest : List Bytes) (r : Result),
      args = items.flatMap (Item.render p.options sep) ++ rest ∧
      (∀ item ∈ items, item.Valid p sep) ∧ ((rest = [] ∧ r = {}) ∨ Stuck p sep rest r) := by
  induction hn : args.length using Nat.strong_induction_on generalizing args with
  | _ n ih =>
    rcases eq_or_ne args [] with rfl | hne
    · exact ⟨[], [], {}, rfl, fun _ h => absurd h List.not_mem_nil, .inl ⟨rfl, rfl⟩⟩
    obtain ⟨item, rest, hv, rfl⟩ | ⟨r, hstuck⟩ := exists_item hp sep hne
    · have hlt : rest.length < n := by
        rw [← hn]
        cases item <;> simp +arith [Item.render]
      obtain ⟨items, stop, r, rfl, hvalid, hrest⟩ := ih _ hlt rest rfl
      refine ⟨item :: items, stop, r, ?_, ?_, hrest⟩
      · rw [List.flatMap_cons, List.append_assoc]
      · intro other hmem
        obtain rfl | hmem := List.mem_cons.mp hmem
        · exact hv
        · exact hvalid other hmem
    · exact ⟨[], args, r, rfl, fun _ h => absurd h List.not_mem_nil, .inr hstuck⟩

theorem exists_reading (hp : p.Wf) (sep : UInt8) :
    ∃ r q items rest, Reading p sep r q items rest := by
  obtain ⟨items, rest, r, hargs, hvalid, hrest⟩ := exists_items hp sep p.args
  exact ⟨r, _, items, rest, hargs, hvalid, hrest, rfl⟩

/-! ### There is one way to read it -/

omit [Double ν] in
theorem Splits.inj {id' tail tail' : Bytes} {o : Options} (h : Splits sep id tail)
    (h' : Splits sep id' tail') (heq : o.word id tail = o.word id' tail') :
    id = id' ∧ tail = tail' := by
  have hid {id tail : Bytes} (h : Splits sep id tail) :
      (id ++ tail).takeWhile (· != sep) = id := by
    rw [List.takeWhile_append_of_pos]
    · obtain rfl | ⟨value, rfl⟩ := h.tail_eq <;> simp
    · intro c hc
      simpa using fun hsep : c = sep => h.not_mem (hsep ▸ hc)
  rw [Options.word, Options.word, List.append_assoc, List.append_assoc,
    List.append_cancel_left_eq] at heq
  obtain rfl : id = id' := by rw [← hid h, heq, hid h']
  exact ⟨rfl, List.append_cancel_left heq⟩

omit [Double ν] in
theorem isFlag_ne {arg tail : Bytes} (h : Splits sep id tail) (harg : p.isFlag arg = false) :
    p.options.word id tail ≠ arg := by
  rintro rfl
  rw [isFlag_word h] at harg
  cases harg

omit [Double ν] in
theorem Parser.get_ne_none (h : p.typeOf id = some t) : p.get id ≠ none := by
  obtain ⟨f, flag, hget, -⟩ := Parser.typeOf_eq_some.mp h
  simp [hget]

theorem Parser.typeOf_of_value (h : p.valueOf id value = some data) :
    p.get id ≠ none ∧ p.typeOf id ≠ some .Bool := by
  obtain ⟨f, flag, hget, hflag, hbool, -⟩ := Parser.valueOf_eq_some h
  simp [Parser.typeOf, hget, hflag, hbool]

theorem Item.Valid.unique {rest' : List Bytes} (hv : item.Valid p sep) (hv' : item'.Valid p sep)
    (heq : item.render p.options sep ++ rest = item'.render p.options sep ++ rest') :
    item = item' ∧ rest = rest' := by
  have hlong {id value : Bytes} (h : sep ∉ id) : Splits sep id (sep :: value) := .of_cons h
  cases hv <;> cases hv' <;>
    simp only [Item.render, List.cons_append, List.nil_append, List.cons.injEq] at heq <;>
    grind [Splits.inj, isFlag_ne, → Parser.get_ne_none, → Parser.typeOf_of_value,
      List.length_eq_zero_iff]

theorem Item.Valid.not_stuck (hv : item.Valid p sep) :
    ¬Stuck p sep (item.render p.options sep ++ rest) r := by
  intro hstuck
  have hlong {id value : Bytes} (h : sep ∉ id) : Splits sep id (sep :: value) := .of_cons h
  generalize heq : item.render p.options sep ++ rest = args at hstuck
  cases hv <;> cases hstuck <;>
    simp only [Item.render, List.cons_append, List.nil_append, List.cons.injEq] at heq <;>
    grind [Splits.inj, isFlag_ne, → Parser.get_ne_none, → Parser.typeOf_of_value,
      List.length_eq_zero_iff]

theorem items_unique {rest' : List Bytes} {r' : Result} {items' : List Item}
    (hrest : (rest = [] ∧ r = {}) ∨ Stuck p sep rest r)
    (hrest' : (rest' = [] ∧ r' = {}) ∨ Stuck p sep rest' r')
    (hv : ∀ item ∈ items, item.Valid p sep) (hv' : ∀ item ∈ items', item.Valid p sep)
    (heq : items.flatMap (Item.render p.options sep) ++ rest =
      items'.flatMap (Item.render p.options sep) ++ rest') : items = items' := by
  -- an item where the other reading has come to its end
  have hend {item : Item} {args stop : List Bytes} {r : Result} (hv : item.Valid p sep)
      (hstop : (stop = [] ∧ r = {}) ∨ Stuck p sep stop r) :
      item.render p.options sep ++ args ≠ stop := by
    rintro rfl
    obtain ⟨hnil, -⟩ | hstuck := hstop
    · cases item <;> cases hnil
    · exact hv.not_stuck hstuck
  induction items generalizing items' with
  | nil =>
    cases items' with
    | nil => rfl
    | cons item' items' =>
      rw [List.flatMap_cons, List.append_assoc] at heq
      exact absurd heq.symm (hend (hv' item' List.mem_cons_self) hrest)
  | cons item items ih =>
    cases items' with
    | nil =>
      rw [List.flatMap_cons, List.append_assoc] at heq
      exact absurd heq (hend (hv item List.mem_cons_self) hrest')
    | cons item' items' =>
      rw [List.flatMap_cons, List.flatMap_cons, List.append_assoc, List.append_assoc] at heq
      obtain ⟨rfl, hnext⟩ := (hv item List.mem_cons_self).unique (hv' item' List.mem_cons_self) heq
      rw [ih (fun other h => hv other (List.mem_cons_of_mem _ h))
        (fun other h => hv' other (List.mem_cons_of_mem _ h)) hnext]

end

/-! ### A parser with its flags -/

section
variable {ν : Type} {p : Parser ν} {flag : Flag ν}

def Parser.given (options : Options) (flags : List (Flag ν)) (args : List Bytes) : Parser ν :=
  flags.foldl (fun p flag => p.set flag) { options, args }

def Flag.named (flag : Flag ν) (id : Bytes) : Bool := id = flag.name || id ∈ flag.aliases

theorem lookup_emplace (table : AList fun _ : Bytes => Nat) (id key : Bytes) (f : Nat) :
    (emplace table key f).lookup id = (table.lookup id).or (if id = key then some f else none) := by
  unfold emplace
  split_ifs with hmem heq heq
  · subst heq
    obtain ⟨g, hg⟩ := mem_iff_lookup.mp hmem
    rw [hg, Option.some_or]
  · rw [Option.or_none]
  · subst heq
    rw [AList.lookup_insert, AList.lookup_eq_none.mpr hmem, Option.none_or]
  · rw [AList.lookup_insert_ne heq, Option.or_none]

theorem lookup_aliases (table : AList fun _ : Bytes => Nat) (id : Bytes) (aliases : List Bytes)
    (f : Nat) : (aliases.foldl (fun table key => emplace table key f) table).lookup id =
      (table.lookup id).or (if id ∈ aliases then some f else none) := by
  induction aliases generalizing table with
  | nil => simp
  | cons key aliases ih =>
    rw [List.foldl_cons, ih, lookup_emplace, Option.or_assoc]
    by_cases heq : id = key <;> simp [heq]

theorem Parser.get_set (id : Bytes) : (p.set flag).get id =
    (p.get id).or (if flag.named id then some p.flags.length else none) := by
  rw [Parser.get, Parser.set, lookup_aliases, lookup_emplace, Option.or_assoc]
  by_cases heq : id = flag.name <;> simp [Parser.get, Flag.named, heq]

theorem Parser.given_flags (options : Options) (flags : List (Flag ν)) (args : List Bytes) :
    (Parser.given options flags args).flags = flags := by
  induction flags using List.reverseRecOn with
  | nil => rfl
  | append_singleton flags flag ih =>
    rw [Parser.given, List.foldl_append]
    exact congrArg (· ++ [flag]) ih

/-- An id stands for the first flag that has it for a name or an alias. -/
theorem Parser.given_get (options : Options) (flags : List (Flag ν)) (args : List Bytes)
    (id : Bytes) : (Parser.given options flags args).get id =
      flags.findIdx? fun flag => flag.named id := by
  induction flags using List.reverseRecOn with
  | nil => rfl
  | append_singleton flags flag ih =>
    rw [List.findIdx?_append, ← ih, Parser.given, List.foldl_append, List.foldl_cons,
      List.foldl_nil, Parser.get_set, ← Parser.given, Parser.given_flags]
    cases hnamed : flag.named id <;> simp [hnamed]

theorem Parser.given_wf (options : Options) (flags : List (Flag ν)) (args : List Bytes) :
    (Parser.given options flags args).Wf := by
  intro id f hget
  rw [Parser.given_get] at hget
  rw [Parser.given_flags]
  exact (List.findIdx?_eq_some_iff_findIdx_eq.mp hget).1

theorem Parser.given_options (options : Options) (flags : List (Flag ν)) (args : List Bytes) :
    (Parser.given options flags args).options = options := by
  induction flags using List.reverseRecOn with
  | nil => rfl
  | append_singleton flags flag ih =>
    rw [Parser.given, List.foldl_append]
    exact ih

variable [Double ν]

theorem parsed {options : Options} {sep : UInt8} (ho : options.Plain sep) (flags : List (Flag ν))
    (args : List Bytes) :
    (∀ id, (Parser.given options flags args).get id = flags.findIdx? fun flag => flag.named id) ∧
    (∀ r q, (Parser.given options flags args).parse = some (r, q) ↔
      ∃ items rest, Reading (Parser.given options flags args) sep r q items rest) ∧
    ∃! items, ∃ r q rest, Reading (Parser.given options flags args) sep r q items rest := by
  have ho' : (Parser.given options flags args).options.Plain sep := by
    rwa [Parser.given_options]
  obtain ⟨r, q, items, rest, hreading⟩ := exists_reading (Parser.given_wf options flags args) sep
  refine ⟨Parser.given_get options flags args, ?_, ?_⟩
  · intro r' q'
    constructor
    · intro h
      rw [hreading.parse ho'] at h
      cases h
      exact ⟨items, rest, hreading⟩
    · rintro ⟨items', rest', h⟩
      exact h.parse ho'
  · refine ⟨items, ⟨r, q, rest, hreading⟩, ?_⟩
    rintro items' ⟨r', q', rest', h⟩
    exact items_unique h.rest hreading.rest h.valid hreading.valid
      (h.args_eq.symm.trans hreading.args_eq)

end

/-- The numbers that are written with digits only. -/
@[reducible] def wholeNumbers : Double Nat where
  fromChars text :=
    let digits := text.takeWhile fun c => 48 ≤ c && c ≤ 57
    if digits = [] then none else some (digits.foldl (fun n c => 10 * n + (c.toNat - 48)) 0)
  ofNat n := n
  toInt n := if n < 2 ^ 31 then some n else none

section
attribute [local instance] wholeNumbers

/-- The parser of a program with two options. -/
def twoFlags (args : List Bytes) : Parser Nat :=
  .given {}
    [{ name := str "port", data := .string (str "3000"), aliases := [str "p"] },
      { name := str "verbose", data := .bool false, type := .Bool, aliases := [str "v"] }] args

theorem parsed_port : ∃ r q,
    (twoFlags [str "ambry", str "-p", str "-v", str "-port=80=0"]).parse = some (r, q) ∧ r.ok ∧
      q.flags.map Flag.data = [.string (str "80=0"), .bool false] := by
  have hplain : ({} : Options).Plain 61 := ⟨by decide, by decide⟩
  have hvalue (id value : String)
      (h : (twoFlags [str "ambry", str "-p", str "-v", str "-port=80=0"]).typeOf (str id) =
        some .String) :
      (twoFlags [str "ambry", str "-p", str "-v", str "-port=80=0"]).valueOf (str id) (str value) =
        some (.string (str value)) := by
    rw [Parser.valueOf, h]
    rfl
  refine ⟨_, _, (parsed hplain _ _).2.1 _ _ |>.mpr ⟨[.positional (str "ambry"),
    .separate (str "p") [] (str "-v"), .inline (str "port") (str "80=0")], [],
    by decide, ?_, .inl ⟨rfl, rfl⟩, rfl⟩, rfl, by decide⟩
  intro item hmem
  simp only [List.mem_cons, List.not_mem_nil, or_false] at hmem
  obtain rfl | rfl | rfl := hmem
  · exact .positional (by decide)
  · exact .separate (.of_nil (by decide) (by decide)) (by decide) (hvalue "p" "-v" (by decide))
  · exact .inline (by decide) (by decide) (hvalue "port" "80=0" (by decide))

end

end Ambry.Flags
