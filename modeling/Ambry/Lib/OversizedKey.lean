import Ambry.Lib.IndexPersistence

/-!
# Keys longer than their length field

The length of a key is stored in 16 bits, so no key that is read back from the
file is longer than they can tell, whatever the file holds.
-/

namespace Ambry

open Foundation

/-- Every key has a length that its field can hold. -/
def ShortKeys (index : Index) : Prop := ∀ key ∈ index, key.length ≤ 65535

theorem shortKeys_empty : ShortKeys ∅ := by
  intro key hkey
  exact absurd hkey (AList.notMem_empty key)

theorem ShortKeys.insert {index : Index} {key : Bytes} (h : ShortKeys index)
    (hkey : key.length ≤ 65535) (data : IndexData) : ShortKeys (index.insert key data) := by
  intro k hk
  obtain rfl | hk := (AList.mem_insert index).mp hk
  · exact hkey
  · exact h k hk

theorem ShortKeys.erase {index : Index} (h : ShortKeys index) (key : Bytes) :
    ShortKeys (index.erase key) := by
  intro k hk
  exact h k (AList.mem_erase.mp hk).2

theorem ShortKeys.emplaceIndex {index : Index} {key : Bytes} (h : ShortKeys index)
    (hkey : key.length ≤ 65535) (data : IndexData) :
    ShortKeys (IoManager.emplaceIndex index key data) := by
  rw [IoManager.emplaceIndex]
  split
  · exact h
  · exact h.insert hkey data

section
variable [Machine] {indet : UInt8}

/-- The loop takes as many bytes for a key as 16 bits can tell. -/
theorem ShortKeys.loadIndexLoop {fsize fuel : Nat} {endian : UInt8} {index index' : Index}
    {f f' : File} (h : ShortKeys index)
    (hloop : IoManager.loadIndexLoop indet fsize endian fuel index f = some (index', f')) :
    ShortKeys index' := by
  induction fuel generalizing index f with
  | zero => cases hloop
  | succ fuel ih =>
    rw [IoManager.loadIndexLoop] at hloop
    split at hloop
    case isFalse =>
      cases hloop
      exact h
    case isTrue =>
      dsimp only at hloop
      split at hloop
      · exact ih h hloop
      · apply ih (h.emplaceIndex ?_ _) hloop
        set keyLen : UInt16 := (readN UInt16 f endian).1
        have hkeyLen : keyLen.toNat < 2 ^ 16 := keyLen.toNat_lt
        have hgot : (File.read (readByte indet (readN UInt16 f endian).2).2 keyLen.toNat).1.length ≤
            keyLen.toNat := List.length_take_le _ _
        rw [List.length_append, List.length_replicate]
        omega

end

namespace DB

section
variable [Machine] {indet : UInt8} {db db' : DB} {r : Result} {key value : Bytes} {op : Op}

theorem open_shortKeys (h : db.open indet = some (r, db')) (hempty : db.ctx.index = ∅) :
    ShortKeys db'.ctx.index := by
  obtain ⟨_, hout⟩ := open_cases h
  obtain ⟨f, _, _, hloop⟩ := hout.index
  rw [hempty] at hloop
  exact shortKeys_empty.loadIndexLoop hloop

theorem apply_shortKeys (hkey : op.ShortKey) (hshort : ShortKeys db.ctx.index)
    (h : db.apply op = some (r, db')) : ShortKeys db'.ctx.index := by
  cases op with
  | set key value =>
    obtain ⟨_, _, rfl⟩ | ⟨_, _, pos, hout⟩ := set_cases h
    · exact hshort
    · rw [hout.index]
      exact hshort.insert hkey _
  | update key value =>
    obtain ⟨_, _, rfl⟩ | ⟨old, hlive, _, pos, hout⟩ := update_cases h
    · exact hshort
    · rw [hout.index]
      exact hshort.insert (hshort key (AList.lookup_isSome.mp (by rw [hlive]; rfl))) _
  | erase key =>
    obtain ⟨_, _, rfl⟩ | ⟨old, _, _, hout⟩ := erase_cases h
    · exact hshort
    · rw [hout.index]
      exact hshort.erase key

/-- After closing and opening again every key is found where it was. -/
def FoundAgain (indet : UInt8) (db : DB) : Prop :=
  ∃ r db', db.close.open indet = some (r, db') ∧
    ∀ key data, db.ctx.index.lookup key = some data → ∃ data',
      db'.ctx.index.lookup key = some data' ∧ data'.offset = data.offset ∧
        data'.length = data.length

/-- The key is refused and nothing has changed, or the file still holds the whole index. -/
def Uncorrupted (indet : UInt8) (db : DB) (r : Result) (db' : DB) : Prop :=
  (r.ok = false ∧ db'.ctx.index = db.ctx.index ∧ db'.im = db.im) ∨ db'.FoundAgain indet

theorem not_foundAgain (hlive : key ∈ db.ctx.index) (hlong : 65535 < key.length) :
    ¬ db.FoundAgain indet := by
  rintro ⟨r, db', hopen, hfound⟩
  obtain ⟨data, hdata⟩ := Option.isSome_iff_exists.mp (AList.lookup_isSome.mpr hlive)
  obtain ⟨data', hdata', _⟩ := hfound key data hdata
  have hshort := open_shortKeys hopen rfl key (AList.lookup_isSome.mp (by rw [hdata']; rfl))
  omega

theorem set_oversized (hshort : ShortKeys db.ctx.index) (hlong : 65535 < key.length)
    (hset : db.set key value = some (r, db')) :
    r = .success ∧ key ∈ db'.ctx.index ∧ ¬ Uncorrupted indet db r db' := by
  obtain ⟨⟨data, hdata⟩, _, _⟩ | ⟨_, rfl, pos, hout⟩ := set_cases hset
  · have hle := hshort key (AList.lookup_isSome.mp (by rw [hdata]; rfl))
    omega
  · have hlive : key ∈ db'.ctx.index := by
      rw [hout.index]
      exact (AList.mem_insert _).mpr (.inl rfl)
    refine ⟨rfl, hlive, ?_⟩
    rintro (⟨hrefused, _⟩ | hfound)
    · exact absurd hrefused (by decide)
    · exact not_foundAgain hlive hlong hfound

/-- A key that is too long is always stored, and is lost when the file is read again. -/
theorem set_oversized_never {indet₀ : UInt8} {name : Bytes} {options : Options} {im : IoManager}
    {db₀ : DB} {r₀ : Result} {trace : List (Op × Result)}
    (hopen : (onFiles name options im).open indet₀ = some (r₀, db₀))
    (hrun : Run (Steps apply fun _ op => op.ShortKey) db₀ trace db)
    (hlong : 65535 < key.length) (hset : db.set key value = some (r, db')) :
    r = .success ∧ key ∈ db'.ctx.index ∧ ¬ Uncorrupted indet db r db' := by
  have hshort : ShortKeys db.ctx.index := by
    apply hrun.invariant (I := fun db => ShortKeys db.ctx.index) (open_shortKeys hopen rfl)
    rintro s ⟨op, reply⟩ s' hs ⟨hkey, hstep⟩
    exact apply_shortKeys hkey hs hstep
  exact set_oversized hshort hlong hset

/-- A first value under a key of any length that the file can take. -/
theorem set_first (hkey : key.length + 16 ≤ OFF_MAX) :
    ∃ out, (opened [] {}).set key [1] = some out := by
  have hlength : (IoManager.record 1 key 0 1).length = key.length + 15 := by
    simp only [IoManager.record, List.length_append, image_length, List.length_singleton,
      Scalar.width]
    omega
  have hfits : (splice 0 headerFile.bytes 1 (IoManager.record 1 key 0 1)).length ≤ OFF_MAX := by
    rw [splice_length (Nat.le_refl 1), hlength]
    change max 1 (1 + (key.length + 15)) ≤ OFF_MAX
    omega
  have hwrite : ∃ f, headerFile.lseekEnd.write (IoManager.record 1 key 0 1) = some f :=
    ⟨_, congrArg (Option.map _) (dif_pos hfits)⟩
  obtain ⟨idx, hidx⟩ := hwrite
  let dat : File := ⟨[1], 0, by decide⟩
  have hinsert : ∃ out, IoManager.insert ⟨dat, headerFile, headerFile⟩ key
      { offset := 0, length := 1 } = some out := by
    rw [IoManager.insert, hidx]
    exact ⟨_, rfl⟩
  obtain ⟨out, hinsert⟩ := hinsert
  have hset : (opened [] {}).set key [1] = (IoManager.insert ⟨dat, headerFile, headerFile⟩ key
      { offset := 0, length := 1 }).bind fun out => some (.success,
        ⟨{ name := [], options := {}, data := [1],
           index := ((∅ : Index).insert key {}).insert key out.1 }, out.2⟩) := rfl
  rw [hset, hinsert]
  exact ⟨_, rfl⟩

end

/-- `2 ^ 16` bytes, of which the length field tells none. -/
def longKey : Bytes := List.replicate 65536 97

theorem longKey_length : longKey.length = 65536 := List.length_replicate

theorem longKey_lt : 65535 < longKey.length := by
  rw [longKey_length]
  decide

section
attribute [local instance] littleEndian

theorem set_longKey : ∃ r db', (opened [] {}).set longKey [1] = some (r, db') := by
  have hkey : longKey.length + 16 ≤ OFF_MAX := by
    rw [longKey_length]
    decide
  obtain ⟨⟨r, db'⟩, hset⟩ := set_first hkey
  exact ⟨r, db', hset⟩

theorem set_oversized_first : ∃ r db', (opened [] {}).set longKey [1] = some (r, db') ∧
    r = .success ∧ longKey ∈ db'.ctx.index ∧ ¬ Uncorrupted 0 (opened [] {}) r db' := by
  have hopen : (onFiles [] {} ⟨.empty, .empty, .empty⟩).open 0 = some (.success, opened [] {}) :=
    open_new 0 [] _
  obtain ⟨r, db', hset⟩ := set_longKey
  exact ⟨r, db', hset, set_oversized_never hopen .nil longKey_lt hset⟩

/-- The long key is the first one of a new database. -/
theorem set_oversized_not : ¬ ∀ trace db key value r db',
    Run (Steps apply fun _ op => op.ShortKey) (opened [] {}) trace db → 65535 < key.length →
      db.set key value = some (r, db') → Uncorrupted 0 db r db' := by
  intro hall
  obtain ⟨r, db', hset⟩ := set_longKey
  exact (set_oversized shortKeys_empty longKey_lt hset).2.2
    (hall [] _ _ _ r db' .nil longKey_lt hset)

end

end DB

end Ambry
