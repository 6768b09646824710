import Ambry.Lib.CacheMode

/-!
# Loading the cache

`load_dat` reads as many bytes as the file has, but from where the descriptor
stands, and into a vector that keeps what the read does not reach. An append
leaves the descriptor where the file ended before.
-/

namespace Ambry

open Foundation

section
variable [Machine] {ctx ctx' : DBContext} {im im' : IoManager} {off : UInt64} {slice : Bytes}

/-- An append leaves the descriptor where the file ended before, and a value that is stored in a
free place does not move it. -/
theorem write_pos (h : RW.write ctx im slice = some (off, ctx', im')) :
    im'.dat.pos = im.dat.pos ∨ im'.dat.pos = im.dat.size ∧
      ∀ entry ∈ RW.firstLonger ctx.freeList slice.length, entry.2.offset = npos := by
  obtain ⟨⟨pos, ctx₁, im₁⟩, halloc, h⟩ := Option.bind_eq_some_iff.mp h
  obtain ⟨⟨off₂, im₂⟩, hland, h⟩ := Option.bind_eq_some_iff.mp h
  obtain ⟨l, rfl, hdat, _, hplace⟩ := allocate_spec halloc
  obtain ⟨_, _, _, _, hpos⟩ := writeDat_spec hland
  cases h
  rw [hdat] at hpos
  split at hpos
  case isTrue hend =>
    refine .inr ⟨hpos, ?_⟩
    intro entry hfind
    obtain ⟨other, hother, rfl⟩ | ⟨hnone, _⟩ := hplace.place
    · cases hother.symm.trans hfind
      exact hend
    · cases hnone.symm.trans hfind
  case isFalse => exact .inl hpos

end

namespace DB

/-- What is read is the beginning of the file, and the vector has the bytes behind it already. -/
structure Prepared (db : DB) : Prop where
  front : db.im.dat.bytes.drop db.im.dat.pos <+: db.im.dat.bytes
  back : ∀ i, db.im.dat.size - db.im.dat.pos ≤ i → i < db.im.dat.size →
    db.im.dat.bytes[i]? = some ((db.ctx.data[i]?).getD 0)

variable {db db' : DB}

theorem loadedByte_front {i : Nat} (h : db.im.dat.pos + i < db.im.dat.size) :
    (db.im.dat.bytes.drop db.im.dat.pos)[i]? = some (db.loadedByte i) := by
  rw [List.getElem?_drop, loadedByte, List.getElem?_eq_getElem h, Option.getD_some]

theorem loadedByte_back {i : Nat} (h : db.im.dat.size ≤ db.im.dat.pos + i) :
    db.loadedByte i = (db.ctx.data[i]?).getD 0 := by
  rw [loadedByte, List.getElem?_eq_none h, Option.getD_none]

theorem switchCache_on_eq_iff : (db.switchCache true).ctx.data = (db.switchCache true).im.dat.bytes ↔
    ∀ i < db.im.dat.size, db.im.dat.bytes[i]? = some (db.loadedByte i) := by
  obtain ⟨_, hdat, _, hlength, hloaded⟩ := switchCache_on db
  rw [hdat]
  constructor
  · intro h i hi
    rw [← h]
    exact hloaded i hi
  · intro h
    apply List.ext_getElem?
    intro i
    rcases Nat.lt_or_ge i db.im.dat.size with hi | hi
    · rw [hloaded i hi, h i hi]
    · rw [List.getElem?_eq_none (hlength.trans_le hi), List.getElem?_eq_none hi]

/-- A descriptor at the beginning reads the whole file. -/
theorem prepared_of_pos (hpos : db.im.dat.pos = 0) : db.Prepared := by
  constructor
  · have hwhole : db.im.dat.bytes.drop db.im.dat.pos = db.im.dat.bytes := by
      rw [hpos, List.drop_zero]
    exact ⟨[], by rw [List.append_nil, hwhole]⟩
  · intro i hge hi
    omega

theorem prepared_iff :
    db.Prepared ↔ ∀ i < db.im.dat.size, db.im.dat.bytes[i]? = some (db.loadedByte i) := by
  have hdrop : (db.im.dat.bytes.drop db.im.dat.pos).length = db.im.dat.size - db.im.dat.pos :=
    List.length_drop
  constructor
  · rintro ⟨hfront, hback⟩ i hi
    rcases Nat.lt_or_ge (db.im.dat.pos + i) db.im.dat.size with hlt | hge
    · rw [← loadedByte_front hlt]
      exact (List.prefix_iff_getElem?.mp hfront i (by omega)).trans
        (List.getElem?_eq_getElem _).symm
    · rw [loadedByte_back hge]
      exact hback i (by omega) hi
  · intro h
    constructor
    · rw [List.prefix_iff_getElem?]
      intro i hi
      rw [h i (by omega), ← loadedByte_front (by omega)]
      exact List.getElem?_eq_getElem hi
    · intro i hge hi
      rw [h i hi, loadedByte_back (by omega)]

section
variable [Machine] {key value : Bytes} {r : Result} {op : CacheOp} {reply : Option Result}

theorem set_pos (h : db.set key value = some (r, db')) :
    db'.im.dat.pos = db.im.dat.pos ∨ db'.im.dat.pos = db.im.dat.size ∧
      db.ctx.index.lookup key = none ∧
      ∀ entry ∈ RW.firstLonger db.ctx.freeList value.length, entry.2.offset = npos := by
  rw [set] at h
  split at h
  case h_1 =>
    cases h
    exact .inl rfl
  case h_2 hnew =>
    obtain ⟨⟨offset, ctx, im⟩, hwrite, h⟩ := Option.bind_eq_some_iff.mp h
    obtain ⟨⟨data, im₂⟩, hinsert, h⟩ := Option.bind_eq_some_iff.mp h
    cases h
    rw [(insert_spec hinsert).2.1]
    obtain hkept | ⟨hend, hplace⟩ := write_pos hwrite
    · exact .inl hkept
    · exact .inr ⟨hend, hnew, hplace⟩

/-- The descriptor never leaves the file. -/
theorem applyCache_pos (hpos : db.im.dat.pos ≤ db.im.dat.size)
    (h : db.applyCache op = some (reply, db')) : db'.im.dat.pos ≤ db'.im.dat.size := by
  cases op with
  | set key value =>
    obtain ⟨⟨r, db₁⟩, hset, hdb⟩ := Option.map_eq_some_iff.mp h
    cases hdb
    have hgrows : db.im.dat.size ≤ db₁.im.dat.size := by
      obtain ⟨_, _, rfl⟩ | ⟨_, _, pos, hout⟩ := set_cases hset
      · exact Nat.le_refl _
      · exact hout.grows
    have hset := set_pos hset
    dsimp only
    omega
  | erase key =>
    obtain ⟨⟨r, db₁⟩, herase, hdb⟩ := Option.map_eq_some_iff.mp h
    cases hdb
    obtain ⟨_, _, rfl⟩ | ⟨old, _, _, hout⟩ := erase_cases herase
    · exact hpos
    · rw [hout.dat]
      exact hpos
  | switchCache on =>
    cases h
    cases on with
    | true =>
      have hgot : (window db.im.dat.bytes db.im.dat.pos db.im.dat.size).length ≤
          db.im.dat.size - db.im.dat.pos := by
        rw [window, List.length_take, List.length_drop]
        exact Nat.min_le_right _ _
      change db.im.dat.pos + (window db.im.dat.bytes db.im.dat.pos db.im.dat.size).length ≤
        db.im.dat.size
      omega
    | false => exact hpos

/-- A new value goes into a free place or into an empty file, and nothing is loaded. -/
def Unmoved (db : DB) : CacheOp → Prop
  | .set key value => db.ctx.index.lookup key = none →
      (∀ entry ∈ RW.firstLonger db.ctx.freeList value.length, entry.2.offset = npos) →
      db.im.dat.size = 0
  | .erase _ => True
  | .switchCache on => on = false

/-- As long as no value is appended to another one and nothing is loaded, the descriptor of a file
that was empty stays at the beginning. -/
theorem prepared_of_unmoved {db₀ : DB} {trace : List (CacheOp × Option Result)}
    (hpos : db₀.im.dat.pos = 0) (hrun : Run (Steps applyCache Unmoved) db₀ trace db) :
    db.Prepared := by
  apply prepared_of_pos
  apply hrun.invariant (I := fun db => db.im.dat.pos = 0) hpos
  rintro s ⟨op, reply⟩ s' hpos ⟨hunmoved, hstep⟩
  cases op with
  | set key value =>
    obtain ⟨⟨r, db₁⟩, hset, hdb⟩ := Option.map_eq_some_iff.mp hstep
    cases hdb
    obtain hkept | ⟨hend, hnew, hplace⟩ := set_pos hset
    · exact hkept.trans hpos
    · exact hend.trans (hunmoved hnew hplace)
  | erase key =>
    obtain ⟨⟨r, db₁⟩, herase, hdb⟩ := Option.map_eq_some_iff.mp hstep
    cases hdb
    obtain ⟨_, _, rfl⟩ | ⟨old, _, _, hout⟩ := erase_cases herase
    · exact hpos
    · rw [hout.dat]
      exact hpos
  | switchCache on =>
    cases hstep
    obtain rfl : on = false := hunmoved
    exact hpos

/-- Turning the cache on loads the file exactly where the read that does not start at the beginning
makes no difference. -/
theorem switchCache_loads_iff {indet : UInt8} {name : Bytes} {options : Options} {im : IoManager}
    {db₀ : DB} {trace : List (CacheOp × Option Result)}
    (hopen : (onFiles name options im).open indet = some (r, db₀))
    (hrun : Run (Steps applyCache fun _ _ => True) db₀ trace db) :
    db.im.dat.pos ≤ db.im.dat.size ∧
      ((db.switchCache true).ctx.data = (db.switchCache true).im.dat.bytes ↔ db.Prepared) := by
  constructor
  · have hpos : db₀.im.dat.pos ≤ db₀.im.dat.size := by
      rw [(open_keeps hopen).2]
      exact Nat.le_refl _
    apply hrun.invariant (I := fun db => db.im.dat.pos ≤ db.im.dat.size) hpos
    rintro s ⟨op, reply⟩ s' hpos ⟨_, hstep⟩
    exact applyCache_pos hpos hstep
  · rw [switchCache_on_eq_iff, prepared_iff]

end

section
attribute [local instance] littleEndian

/-- Nothing has been stored but the one value, so the descriptor stands at the beginning. -/
theorem switchCache_loads_first : ∃ trace db,
    Run (Steps applyCache fun _ _ => True) (opened [] { enableCache := false }) trace db ∧
      db.Prepared ∧ db.im.dat.bytes = [1, 2] ∧ (db.switchCache true).ctx.data = [1, 2] := by
  have hrun : ∃ trace db,
      Run (Steps applyCache fun _ _ => True) (opened [] { enableCache := false }) trace db ∧
        db.im.dat.pos = 0 ∧ db.im.dat.bytes = [1, 2] :=
    exists_run [.set [97] [1, 2]] (by decide +kernel) (by decide +kernel)
  obtain ⟨trace, db, hrun, hpos, hbytes⟩ := hrun
  have hopen : (onFiles [] { enableCache := false } ⟨.empty, .empty, .empty⟩).open 0 =
      some (.success, opened [] { enableCache := false }) := open_new 0 [] _
  have hprepared := prepared_of_pos hpos
  have hloaded := (switchCache_loads_iff hopen hrun).2.mpr hprepared
  exact ⟨trace, db, hrun, hprepared, hbytes,
    hloaded.trans ((switchCache_on db).2.1.trans hbytes)⟩

/-- After two appends the read starts at the second value. -/
theorem switchCache_loads_not : ¬ ∀ trace db,
    Run (Steps applyCache fun _ op => op ≠ .switchCache true) (opened [] {}) trace db →
      (db.switchCache true).ctx.data = (db.switchCache true).im.dat.bytes := by
  have hrun : ∃ trace db,
      Run (Steps applyCache fun _ op => op ≠ .switchCache true) (opened [] {}) trace db ∧
        (db.switchCache true).ctx.data = [2, 2] ∧ (db.switchCache true).im.dat.bytes = [1, 2] :=
    exists_run [.set [97] [1], .set [98] [2]] (by decide +kernel) (by decide +kernel)
  intro hall
  obtain ⟨trace, db, hrun, hdata, hdat⟩ := hrun
  have hsame := hall trace db hrun
  rw [hdata, hdat] at hsame
  exact absurd hsame (by decide)

end

end DB

end Ambry
