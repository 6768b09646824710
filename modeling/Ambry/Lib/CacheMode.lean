import Ambry.Foundation.Run
import Ambry.Lib.Ledger

/-!
# Changing the cache mode

`switch_cache` was meant to change where a value is read from and not what is
read. Turning the cache off empties the vector and leaves the option on, so the
next read goes to an empty vector; turning it on reads the data file from where
its descriptor happens to stand. The steps that do no harm are told apart from the
others by the state they start from.
-/

namespace Ambry

open Foundation

namespace DB

/-- The read of the `get` command. -/
def read (db : DB) (key : Bytes) : Option Bytes :=
  if db.isCached then db.getCached key else db.get key

/-- The bytes of the value in the data file. -/
def stored (db : DB) (key : Bytes) : Option Bytes :=
  (db.ctx.index.lookup key).map fun data =>
    window db.im.dat.bytes data.offset.toNat data.length.toNat

/-- Every read is what the file holds, and a cached read stays in the vector. -/
def Faithful (db : DB) : Prop :=
  (∀ key, db.read key = db.stored key) ∧
    (db.isCached → ∀ key data, db.ctx.index.lookup key = some data → data.length ≠ 0 →
      data.offset.toNat + data.length.toNat ≤ db.ctx.data.length)

inductive CacheOp
  | set (key value : Bytes)
  | erase (key : Bytes)
  | switchCache (on : Bool)
  deriving DecidableEq, Repr

def applyCache [Machine] (db : DB) : CacheOp → Option (Option Result × DB)
  | .set key value => (db.set key value).map fun out => (some out.1, out.2)
  | .erase key => (db.erase key).map fun out => (some out.1, out.2)
  | .switchCache on => some (none, db.switchCache on)

/-- The byte that `load_dat` leaves at a position of the vector. -/
def loadedByte (db : DB) (i : Nat) : UInt8 :=
  (db.im.dat.bytes[db.im.dat.pos + i]?).getD ((db.ctx.data[i]?).getD 0)

/-- The vector has the place where a new value goes. -/
def Room [Machine] (db : DB) (value : Bytes) : Prop :=
  match RW.firstLonger db.ctx.freeList value.length with
  | some entry => entry.2.offset.toNat + (payload value).length ≤ db.ctx.data.length
  | none => db.ctx.data.length = db.im.dat.size

/-- A new value has room in the vector or is not cached; the cache is turned off only where it is
off already or has nothing to answer, and on only where `load_dat` leaves the bytes of the file in
the places of the values. -/
def KeepsAnswers [Machine] (db : DB) : CacheOp → Prop
  | .set key value => db.isCached → db.ctx.index.lookup key = none → payload value = [] ∨ Room db value
  | .erase _ => True
  | .switchCache false => db.isCached → ∀ entry ∈ db.ctx.index.entries, entry.2.length = 0
  | .switchCache true => ∀ entry ∈ db.ctx.index.entries, ∀ i < entry.2.length.toNat,
      db.im.dat.bytes[entry.2.offset.toNat + i]? = some (db.loadedByte (entry.2.offset.toNat + i))

instance Room.decidable [Machine] (db : DB) (value : Bytes) : Decidable (Room db value) :=
  match hfind : RW.firstLonger db.ctx.freeList value.length with
  | some entry =>
    decidable_of_iff (entry.2.offset.toNat + (payload value).length ≤ db.ctx.data.length)
      (by rw [Room, hfind])
  | none => decidable_of_iff (db.ctx.data.length = db.im.dat.size) (by rw [Room, hfind])

instance KeepsAnswers.decidable [Machine] (db : DB) : ∀ a, Decidable (KeepsAnswers db a)
  | .set key value => inferInstanceAs (Decidable (db.isCached → db.ctx.index.lookup key = none →
      payload value = [] ∨ Room db value))
  | .erase _ => inferInstanceAs (Decidable True)
  | .switchCache false => inferInstanceAs (Decidable (db.isCached →
      ∀ entry ∈ db.ctx.index.entries, entry.2.length = 0))
  | .switchCache true => inferInstanceAs (Decidable (∀ entry ∈ db.ctx.index.entries,
      ∀ i < entry.2.length.toNat, db.im.dat.bytes[entry.2.offset.toNat + i]? =
        some (db.loadedByte (entry.2.offset.toNat + i))))

/-! ### What is read, byte by byte -/

/-- On the places of the values the vector and the file are the same. -/
def Agrees (db : DB) : Prop :=
  ∀ key e, db.ledger.live key = some e → ∀ i, e.offset ≤ i → i < e.stop →
    db.ctx.data[i]? = db.im.dat.bytes[i]?

variable {db : DB}

theorem lookup_of_live {key : Bytes} {e : Extent} (h : db.ledger.live key = some e) :
    ∃ data, db.ctx.index.lookup key = some data ∧ data.extent = e :=
  Option.map_eq_some_iff.mp h

theorem live_of_lookup {key : Bytes} {data : IndexData}
    (h : db.ctx.index.lookup key = some data) : db.ledger.live key = some data.extent :=
  congrArg (Option.map IndexData.extent) h

theorem live_byte (hinside : db.ledger.Inside) {key : Bytes} {e : Extent}
    (h : db.ledger.live key = some e) {i : Nat} (hi : i < e.stop) : i < db.im.dat.bytes.length :=
  Nat.lt_of_lt_of_le hi (hinside.live_le key e h)

theorem faithful_iff (hinside : db.ledger.Inside) :
    db.Faithful ↔ (db.isCached → db.Agrees) := by
  constructor
  · rintro ⟨hread, _⟩ hcached key e hlive
    obtain ⟨data, hdata, rfl⟩ := lookup_of_live hlive
    have hkey := hread key
    rw [read, if_pos hcached, getCached, stored, hdata] at hkey
    exact window_eq_iff.mp (Option.some.inj hkey)
  · intro hagrees
    constructor
    · intro key
      rw [read]
      split
      case isTrue hcached =>
        rw [getCached, stored]
        cases hdata : db.ctx.index.lookup key with
        | none => rfl
        | some data =>
          exact congrArg some (window_eq_iff.mpr (hagrees hcached key _ (live_of_lookup hdata)))
      case isFalse =>
        rw [get_eq_window hinside]
        simp only [ledger, liveExtents, Option.map_map]
        rfl
    · intro hcached key data hdata hne
      have hlive := live_of_lookup hdata
      have hpos : 0 < data.length.toNat := by
        rw [Nat.pos_iff_ne_zero]
        exact fun hzero => hne (UInt32.toNat_inj.mp hzero)
      have hoffset : data.extent.offset = data.offset.toNat := rfl
      have hstop : data.extent.stop = data.offset.toNat + data.length.toNat := rfl
      have hsame := hagrees hcached key _ hlive (data.extent.stop - 1) (by omega) (by omega)
      rw [List.getElem?_eq_getElem (live_byte hinside hlive (by omega))] at hsame
      obtain ⟨hlt, _⟩ := List.getElem?_eq_some_iff.mp hsame
      omega

/-! ### What one step does -/

section
variable [Machine] {db' : DB} {key value : Bytes} {r : Result} {reply : Option Result} {op : CacheOp}

omit [Machine] in
theorem getElem?_resize (data : Bytes) {n i : Nat} (hi : i < n) :
    (IoManager.resize data n)[i]? = some ((data[i]?).getD 0) := by
  rw [IoManager.resize, List.getElem?_append, List.length_take, List.getElem?_take_of_lt hi]
  split
  case isTrue hlt =>
    rw [List.getElem?_eq_getElem (by omega), Option.getD_some]
  case isFalse hge =>
    rw [List.getElem?_replicate_of_lt (by omega), List.getElem?_eq_none (by omega), Option.getD_none]

omit [Machine] in
theorem length_resize (data : Bytes) (n : Nat) : (IoManager.resize data n).length = n := by
  simp only [IoManager.resize, List.length_append, List.length_take, List.length_replicate]
  omega

omit [Machine] in
theorem switchCache_on (db : DB) : (db.switchCache true).ledger = db.ledger ∧
    (db.switchCache true).im.dat.bytes = db.im.dat.bytes ∧
    (db.switchCache true).isCached = true ∧
    (db.switchCache true).ctx.data.length = db.im.dat.size ∧
    ∀ i < db.im.dat.size, (db.switchCache true).ctx.data[i]? = some (db.loadedByte i) := by
  have hgot : (window db.im.dat.bytes db.im.dat.pos db.im.dat.size).length ≤ db.im.dat.size := by
    rw [window, List.length_take]
    exact Nat.min_le_left _ _
  have hdata : (db.switchCache true).ctx.data = splice 0 (IoManager.resize db.ctx.data db.im.dat.size)
      0 (window db.im.dat.bytes db.im.dat.pos db.im.dat.size) := rfl
  refine ⟨rfl, rfl, rfl, ?_, ?_⟩
  · rw [hdata, splice_length (Nat.zero_le _), length_resize, Nat.zero_add, Nat.max_eq_left hgot]
  · intro i hi
    have hwindow := getElem?_window db.im.dat.bytes db.im.dat.pos db.im.dat.size i
    rw [if_pos hi] at hwindow
    rw [hdata, getElem?_splice (Nat.zero_le _), Nat.zero_add, Nat.sub_zero, loadedByte, ← hwindow]
    split
    case isTrue hlt => rw [List.getElem?_eq_getElem hlt.2, Option.getD_some]
    case isFalse hge =>
      have hnone : (window db.im.dat.bytes db.im.dat.pos db.im.dat.size)[i]? = none :=
        List.getElem?_eq_none (by omega)
      rw [hnone, Option.getD_none]
      exact getElem?_resize _ hi

theorem applyCache_inside (hinside : db.ledger.Inside)
    (h : db.applyCache op = some (reply, db')) : db'.ledger.Inside := by
  cases op with
  | set key value =>
    obtain ⟨⟨r, db₁⟩, hset, hdb⟩ := Option.map_eq_some_iff.mp h
    cases hdb
    exact inside_set hinside hset
  | erase key =>
    obtain ⟨⟨r, db₁⟩, herase, hdb⟩ := Option.map_eq_some_iff.mp h
    cases hdb
    exact inside_erase hinside herase
  | switchCache on =>
    cases h
    cases on <;> exact hinside

theorem SetOutcome.live_eq {pos : UInt64} (h : SetOutcome db key value pos db') :
    db'.ledger.live = Function.update db.ledger.live key
      (some ⟨(landing db.im.dat.size pos).toNat, (payload value).length⟩) := by
  rw [payload_length]
  have hindex := congrArg liveExtents h.index
  rw [liveExtents_insert] at hindex
  exact hindex

theorem SetOutcome.grows {pos : UInt64} (h : SetOutcome db key value pos db') :
    db.im.dat.size ≤ db'.im.dat.size := by
  rw [File.size, File.size, h.dat]
  exact length_le_splice _ _ _ _

/-- What `set` does to the vector, where it is used, and to the file. -/
theorem SetOutcome.cached {pos : UInt64} (h : SetOutcome db key value pos db')
    (hinside : db.ledger.Inside) (hcached : db.isCached) :
    (∃ entry, RW.firstLonger db.ctx.freeList value.length = some entry ∧
      entry.2.offset.toNat + value.length < db.im.dat.size ∧
      db'.ledger.live = Function.update db.ledger.live key
        (some ⟨entry.2.offset.toNat, (payload value).length⟩) ∧
      db'.ctx.data = Cache.store db.ctx.data entry.2.offset.toNat (payload value) ∧
      db'.im.dat.bytes = splice 0 db.im.dat.bytes entry.2.offset.toNat (payload value)) ∨
    (RW.firstLonger db.ctx.freeList value.length = none ∧
      db'.ledger.live = Function.update db.ledger.live key
        (some ⟨db.im.dat.size, (payload value).length⟩) ∧
      db'.ctx.data = db.ctx.data ++ payload value ∧
      db'.im.dat.bytes = db.im.dat.bytes ++ payload value) := by
  have hcache := h.cache
  have hon : db.ctx.options.enableCache = true := hcached
  rw [if_pos hon] at hcache
  obtain ⟨hdata, _⟩ := Prod.mk.inj hcache
  have hlive := h.live_eq
  have hdat := h.dat
  obtain ⟨entry, hfind, rfl⟩ | ⟨hfind, rfl⟩ := h.allocated.place
  · obtain ⟨_, hnone⟩ | ⟨hpos, hstop, _⟩ := h.allocated.inside db.size_le hinside.free_le
    · exact absurd (firstLonger_lt hfind) (hnone entry (firstLonger_mem hfind))
    · rw [landing, if_neg hpos] at hlive hdat
      rw [Cache.write, if_neg hpos] at hdata
      exact .inl ⟨entry, hfind, hstop, hlive, hdata, hdat⟩
  · rw [landing_npos db.size_le] at hlive hdat
    rw [Cache.write, if_pos rfl] at hdata
    refine .inr ⟨hfind, hlive, hdata, ?_⟩
    rw [hdat]
    exact splice_end 0 db.im.dat.bytes (payload value)

omit [Machine] in
theorem agrees_update {e : Extent}
    (hlive : db'.ledger.live = Function.update db.ledger.live key (some e)) : db'.Agrees ↔
      (∀ i, e.offset ≤ i → i < e.stop → db'.ctx.data[i]? = db'.im.dat.bytes[i]?) ∧
      ∀ k f, k ≠ key → db.ledger.live k = some f → ∀ i, f.offset ≤ i → i < f.stop →
        db'.ctx.data[i]? = db'.im.dat.bytes[i]? := by
  rw [Agrees, hlive]
  constructor
  · intro h
    refine ⟨h key e (Function.update_self _ _ _), fun k f hne hf => h k f ?_⟩
    rw [Function.update_of_ne hne]
    exact hf
  · rintro ⟨hnew, hold⟩ k f hf
    obtain ⟨_, hf⟩ | ⟨hne, hf⟩ := Ledger.update_eq_some hf
    · cases hf
      exact hnew
    · exact hold k f hne hf

omit [Machine] in
/-- The last byte of a new value has to be in the vector. -/
theorem stop_le_of_agrees {e : Extent} (hinside : db'.ledger.Inside)
    (hlive : db'.ledger.live key = some e) (hne : e.length ≠ 0)
    (h : ∀ i, e.offset ≤ i → i < e.stop → db'.ctx.data[i]? = db'.im.dat.bytes[i]?) :
    e.stop ≤ db'.ctx.data.length := by
  have hstop : e.stop = e.offset + e.length := rfl
  have hlast := h (e.stop - 1) (by omega) (by omega)
  rw [List.getElem?_eq_getElem (live_byte hinside hlive (by omega))] at hlast
  obtain ⟨hlt, _⟩ := List.getElem?_eq_some_iff.mp hlast
  omega

omit [Machine] in
theorem Agrees.lt_length (hagrees : db.Agrees) (hinside : db.ledger.Inside) {e : Extent}
    (hlive : db.ledger.live key = some e) {i : Nat} (hlow : e.offset ≤ i) (hhigh : i < e.stop) :
    i < db.ctx.data.length := by
  have hsame := hagrees key e hlive i hlow hhigh
  rw [List.getElem?_eq_getElem (live_byte hinside hlive hhigh)] at hsame
  exact (List.getElem?_eq_some_iff.mp hsame).1

omit [Machine] in
/-- A value goes to a place that the file has. -/
theorem agrees_store_iff (hinside : db.ledger.Inside) (hinside' : db'.ledger.Inside)
    (hagrees : db.Agrees) {offset : Nat} {bytes : Bytes} (hoffset : offset ≤ db.im.dat.size)
    (hlive : db'.ledger.live = Function.update db.ledger.live key (some ⟨offset, bytes.length⟩))
    (hdata : db'.ctx.data = Cache.store db.ctx.data offset bytes)
    (hdat : db'.im.dat.bytes = splice 0 db.im.dat.bytes offset bytes) :
    db'.Agrees ↔ bytes = [] ∨ offset + bytes.length ≤ db.ctx.data.length := by
  have hself := congrFun hlive key
  rw [Function.update_self] at hself
  rw [agrees_update hlive, ← List.length_eq_zero_iff]
  dsimp only [Extent.stop]
  constructor
  · rintro ⟨hnew, _⟩
    rw [Decidable.or_iff_not_imp_left]
    intro hne
    have hle := stop_le_of_agrees hinside' hself hne hnew
    rw [hdata, Cache.store_length] at hle
    exact hle
  · intro hroom
    rw [hdata, hdat]
    constructor
    · intro i hlow hhigh
      rw [Cache.getElem?_store, getElem?_splice hoffset, if_pos (by omega), if_pos (by omega)]
    · intro k f _ hf i hlow hhigh
      have hi := hagrees.lt_length hinside hf hlow hhigh
      rw [Cache.getElem?_store, getElem?_splice hoffset, hagrees k f hf i hlow hhigh]
      simp only [hi, and_true]

omit [Machine] in
/-- A value goes to the end of both. -/
theorem agrees_append_iff (hinside : db.ledger.Inside) (hinside' : db'.ledger.Inside)
    (hagrees : db.Agrees) (htrail : db.ctx.data.length ≤ db.im.dat.size) {bytes : Bytes}
    (hlive : db'.ledger.live =
      Function.update db.ledger.live key (some ⟨db.im.dat.size, bytes.length⟩))
    (hdata : db'.ctx.data = db.ctx.data ++ bytes)
    (hdat : db'.im.dat.bytes = db.im.dat.bytes ++ bytes) :
    db'.Agrees ↔ bytes = [] ∨ db.ctx.data.length = db.im.dat.size := by
  have hsize : db.im.dat.size = db.im.dat.bytes.length := rfl
  have hself := congrFun hlive key
  rw [Function.update_self] at hself
  rw [agrees_update hlive, ← List.length_eq_zero_iff]
  dsimp only [Extent.stop]
  constructor
  · rintro ⟨hnew, _⟩
    rw [Decidable.or_iff_not_imp_left]
    intro hne
    have hle := stop_le_of_agrees hinside' hself hne hnew
    rw [hdata, List.length_append, Extent.stop] at hle
    dsimp only at hle
    omega
  · intro hroom
    rw [hdata, hdat]
    constructor
    · intro i hlow hhigh
      rw [List.getElem?_append_right (by omega), List.getElem?_append_right (by omega),
        show db.ctx.data.length = db.im.dat.bytes.length by omega]
    · intro k f _ hf i hlow hhigh
      have hi := hagrees.lt_length hinside hf hlow hhigh
      rw [List.getElem?_append_left hi, List.getElem?_append_left (by omega)]
      exact hagrees k f hf i hlow hhigh

theorem SetOutcome.agrees_iff {pos : UInt64} (h : SetOutcome db key value pos db')
    (hinside : db.ledger.Inside) (hinside' : db'.ledger.Inside) (hcached : db.isCached)
    (htrail : db.ctx.data.length ≤ db.im.dat.size) (hagrees : db.Agrees) :
    db'.Agrees ↔ payload value = [] ∨ Room db value := by
  obtain ⟨entry, hfind, hstop, hlive, hdata, hdat⟩ | ⟨hfind, hlive, hdata, hdat⟩ :=
    h.cached hinside hcached
  · have hoffset : entry.2.offset.toNat ≤ db.im.dat.size := by omega
    rw [Room, hfind]
    exact agrees_store_iff hinside hinside' hagrees hoffset hlive hdata hdat
  · rw [Room, hfind]
    exact agrees_append_iff hinside hinside' hagrees htrail hlive hdata hdat

/-- The vector is never longer than the file. -/
theorem applyCache_length (hinside : db.ledger.Inside)
    (htrail : db.ctx.data.length ≤ db.im.dat.size) (h : db.applyCache op = some (reply, db')) :
    db'.ctx.data.length ≤ db'.im.dat.size := by
  cases op with
  | set key value =>
    obtain ⟨⟨r, db₁⟩, hset, hdb⟩ := Option.map_eq_some_iff.mp h
    cases hdb
    obtain ⟨_, _, rfl⟩ | ⟨_, _, pos, hout⟩ := set_cases hset
    · exact htrail
    have hgrows := hout.grows
    dsimp only
    by_cases hcached : db.isCached
    · obtain ⟨_, _, _, _, hdata, _⟩ | ⟨_, _, hdata, hdat⟩ := hout.cached hinside hcached
      · rw [hdata, Cache.store_length]
        exact htrail.trans hgrows
      · rw [hdata, File.size, hdat, List.length_append, List.length_append]
        exact Nat.add_le_add_right htrail _
    · have hcache := hout.cache
      have hoff : ¬ db.ctx.options.enableCache = true := hcached
      rw [if_neg hoff] at hcache
      rw [(Prod.mk.inj hcache).1]
      exact htrail.trans hgrows
  | erase key =>
    obtain ⟨⟨r, db₁⟩, herase, hdb⟩ := Option.map_eq_some_iff.mp h
    cases hdb
    obtain ⟨_, _, rfl⟩ | ⟨old, _, _, hout⟩ := erase_cases herase
    · exact htrail
    · rw [hout.data, hout.dat]
      exact htrail
  | switchCache on =>
    cases h
    cases on with
    | true => exact (switchCache_on db).2.2.2.1.le
    | false => exact Nat.zero_le _

theorem set_faithful_iff (hinside : db.ledger.Inside)
    (htrail : db.ctx.data.length ≤ db.im.dat.size) (hfaithful : db.Faithful)
    (h : db.set key value = some (r, db')) :
    db'.Faithful ↔ KeepsAnswers db (.set key value) := by
  have hinside' := inside_set hinside h
  obtain ⟨⟨data, hdata⟩, _, rfl⟩ | ⟨hnew, _, pos, hout⟩ := set_cases h
  · refine iff_of_true hfaithful fun _ hnew => ?_
    rw [hdata] at hnew
    cases hnew
  · have hmode : db'.isCached = db.isCached := congrArg Options.enableCache hout.options
    rw [faithful_iff hinside', hmode, KeepsAnswers]
    refine imp_congr_right fun hcached => ?_
    have hagrees := (faithful_iff hinside).mp hfaithful hcached
    rw [hout.agrees_iff hinside hinside' hcached htrail hagrees]
    exact ⟨fun h _ => h, fun h => h hnew⟩

theorem erase_faithful (hinside : db.ledger.Inside) (hfaithful : db.Faithful)
    (h : db.erase key = some (r, db')) : db'.Faithful := by
  have hinside' := inside_erase hinside h
  obtain ⟨_, _, rfl⟩ | ⟨old, _, _, hout⟩ := erase_cases h
  · exact hfaithful
  · have hmode : db'.isCached = db.isCached := congrArg Options.enableCache hout.options
    rw [faithful_iff hinside', hmode]
    intro hcached k e hlive
    rw [hout.ledger_eq.1] at hlive
    obtain ⟨_, hnone⟩ | ⟨_, hlive⟩ := Ledger.update_eq_some hlive
    · cases hnone
    · rw [hout.data, hout.dat]
      exact (faithful_iff hinside).mp hfaithful hcached k e hlive

omit [Machine] in
theorem switchOff_faithful_iff (hinside : db.ledger.Inside) :
    (db.switchCache false).Faithful ↔
      (db.isCached → ∀ entry ∈ db.ctx.index.entries, entry.2.length = 0) := by
  have hinside' : (db.switchCache false).ledger.Inside := hinside
  rw [faithful_iff hinside']
  refine imp_congr_right fun hcached => ?_
  constructor
  · rintro hagrees ⟨key, data⟩ hmem
    by_contra hne
    have hlive := live_of_lookup (AList.mem_lookup_iff.mpr hmem)
    have hlt := hagrees.lt_length hinside' hlive (Nat.le_refl _) (by
      have hpos : data.length.toNat ≠ 0 := fun hzero => hne (UInt32.toNat_inj.mp hzero)
      have hstop : data.extent.stop = data.extent.offset + data.length.toNat := rfl
      omega)
    exact Nat.not_lt_zero _ hlt
  · intro hempty key e hlive i hlow hhigh
    obtain ⟨data, hdata, rfl⟩ := lookup_of_live hlive
    have hzero : data.length = 0 := hempty ⟨key, data⟩ (AList.mem_lookup_iff.mp hdata)
    rw [Extent.stop, IndexData.extent, hzero] at hhigh
    exact absurd hhigh (Nat.not_lt.mpr hlow)

omit [Machine] in
theorem switchOn_faithful_iff (hinside : db.ledger.Inside) :
    (db.switchCache true).Faithful ↔ ∀ entry ∈ db.ctx.index.entries,
      ∀ i < entry.2.length.toNat, db.im.dat.bytes[entry.2.offset.toNat + i]? =
        some (db.loadedByte (entry.2.offset.toNat + i)) := by
  obtain ⟨hledger, hdat, hcached, _, hloaded⟩ := switchCache_on db
  have hinside' : (db.switchCache true).ledger.Inside := hledger ▸ hinside
  rw [faithful_iff hinside']
  constructor
  · rintro hagrees ⟨key, data⟩ hmem i hi
    have hlive := live_of_lookup (AList.mem_lookup_iff.mpr hmem)
    have hstop : data.extent.stop = data.offset.toNat + data.length.toNat := rfl
    have hhigh : data.offset.toNat + i < data.extent.stop := by
      rw [hstop]
      exact Nat.add_lt_add_left hi _
    rw [← hloaded _ (live_byte hinside hlive hhigh), ← hdat]
    exact (hagrees hcached key _ hlive _ (Nat.le_add_right _ _) hhigh).symm
  · intro hbytes _ key e hlive i hlow hhigh
    rw [hledger] at hlive
    obtain ⟨data, hdata, rfl⟩ := lookup_of_live hlive
    have hoffset : data.extent.offset = data.offset.toNat := rfl
    have hstop : data.extent.stop = data.offset.toNat + data.length.toNat := rfl
    have hi : i - data.offset.toNat < data.length.toNat := by omega
    have hbyte := hbytes ⟨key, data⟩ (AList.mem_lookup_iff.mp hdata) (i - data.offset.toNat) hi
    dsimp only at hbyte
    rw [Nat.add_sub_of_le (hoffset ▸ hlow)] at hbyte
    rw [hloaded i (live_byte hinside hlive hhigh), hdat, hbyte]

/-- A step keeps the answers right exactly under its condition. -/
theorem applyCache_faithful_iff (hinside : db.ledger.Inside)
    (htrail : db.ctx.data.length ≤ db.im.dat.size) (hfaithful : db.Faithful)
    (h : db.applyCache op = some (reply, db')) : db'.Faithful ↔ KeepsAnswers db op := by
  cases op with
  | set key value =>
    obtain ⟨⟨r, db₁⟩, hset, hdb⟩ := Option.map_eq_some_iff.mp h
    cases hdb
    exact set_faithful_iff hinside htrail hfaithful hset
  | erase key =>
    obtain ⟨⟨r, db₁⟩, herase, hdb⟩ := Option.map_eq_some_iff.mp h
    cases hdb
    exact iff_of_true (erase_faithful hinside hfaithful herase) trivial
  | switchCache on =>
    cases h
    cases on with
    | true => exact switchOn_faithful_iff hinside
    | false => exact switchOff_faithful_iff hinside

theorem faithful_of_open {indet : UInt8} {name : Bytes} {options : Options} {im : IoManager}
    (hopen : (onFiles name options im).open indet = some (r, db)) (hinside : db.ledger.Inside) :
    db.ctx.data.length = db.im.dat.size ∧ db.Faithful := by
  obtain ⟨_, hout⟩ := open_cases hopen
  have hdata : db.ctx.data = db.im.dat.bytes := hout.data.trans hout.dat.symm
  constructor
  · rw [hdata, File.size]
  · rw [faithful_iff hinside]
    intro _ key e _ i _ _
    rw [hdata]

/-- As long as every step meets its condition, the `get` command answers what the file holds; the
first step that does not is the first after which it does not. -/
theorem cacheMode_faithful {indet : UInt8} {name : Bytes} {options : Options} {im : IoManager}
    {db₀ : DB} {trace : List (CacheOp × Option Result)}
    (hopen : (onFiles name options im).open indet = some (r, db₀)) (hwell : db₀.ledger.Inside)
    (hrun : Run (Steps applyCache KeepsAnswers) db₀ trace db) :
    db.Faithful ∧ ∀ op reply db', db.applyCache op = some (reply, db') →
      (db'.Faithful ↔ KeepsAnswers db op) := by
  have hinv : db.ledger.Inside ∧ db.ctx.data.length ≤ db.im.dat.size ∧ db.Faithful := by
    refine hrun.invariant
      (I := fun db => db.ledger.Inside ∧ db.ctx.data.length ≤ db.im.dat.size ∧ db.Faithful) ?_ ?_
    · obtain ⟨hlength, hfaithful⟩ := faithful_of_open hopen hwell
      exact ⟨hwell, hlength.le, hfaithful⟩
    · rintro db e db' ⟨hinside, htrail, hfaithful⟩ ⟨hkeeps, hstep⟩
      exact ⟨applyCache_inside hinside hstep, applyCache_length hinside htrail hstep,
        (applyCache_faithful_iff hinside htrail hfaithful hstep).mpr hkeeps⟩
  obtain ⟨hinside, htrail, hfaithful⟩ := hinv
  exact ⟨hfaithful, fun op reply db' h => applyCache_faithful_iff hinside htrail hfaithful h⟩

end

section
attribute [local instance] littleEndian

/-- A database is opened without the cache, which is turned on after the first value. -/
theorem cacheMode_faithful_on : ∃ trace db,
    Run (Steps applyCache KeepsAnswers) (opened [] { enableCache := false }) trace db ∧
      db.isCached ∧ db.Faithful ∧ db.read [98] = some [3] := by
  have hrun : ∃ trace db,
      Run (Steps applyCache KeepsAnswers) (opened [] { enableCache := false }) trace db ∧
        (db.isCached ∧ db.read [98] = some [3]) :=
    exists_run [.set [97] [1, 2], .switchCache true, .set [98] [3], .erase [97]]
      (by decide +kernel) (by decide +kernel)
  obtain ⟨trace, db, hrun, hcached, hread⟩ := hrun
  have hopen : (onFiles [] { enableCache := false } ⟨.empty, .empty, .empty⟩).open 0 =
      some (.success, opened [] { enableCache := false }) := open_new 0 [] _
  have hwell := (opened_sound [] { enableCache := false }).toInside
  exact ⟨trace, db, hrun, hcached, (cacheMode_faithful hopen hwell hrun).1, hread⟩

/-- The cache is turned off: the option stays on and the vector is empty. -/
theorem cacheMode_unfaithful : ¬ ∀ trace db,
    Run (Steps applyCache fun _ _ => True) (opened [] {}) trace db → db.Faithful := by
  have hrun : ∃ trace db, Run (Steps applyCache fun _ _ => True) (opened [] {}) trace db ∧
      db.read [97] ≠ db.stored [97] :=
    exists_run [.set [97] [120], .switchCache false] (by decide +kernel) (by decide +kernel)
  intro hall
  obtain ⟨trace, db, hrun, hread⟩ := hrun
  exact hread ((hall trace db hrun).1 [97])

end

end DB

end Ambry
