import Ambry.Lib.IndexPersistence

/-!
# A torn index file

An append that was interrupted leaves a part of a record at the end of the index
file. `load_index` looks at the position only where a record begins; a read past
the end returns no bytes, and the fields that are missing are taken as zero, so
the part is loaded as a record of its own. It does no harm when its validity byte
is read as zero, or when the key it seems to have is in the index already.
-/

namespace Ambry

open Foundation

section
variable [Machine]

/-! ### What is read of a part of a record -/

/-- The key length that is read when `k` bytes of the record are there. -/
def tornLength (r : IdxRecord) (k : Nat) : Nat :=
  (ofImage Machine.order ((image Machine.order (UInt16.ofNat r.key.length)).take k ++
    List.replicate (2 - k) 0) : UInt16).toNat

/-- The validity byte, which is indeterminate when it is not there. -/
def tornByte (indet : UInt8) (r : IdxRecord) (k : Nat) : UInt8 :=
  if k ≤ 2 then indet else if r.valid then 1 else 0

def tornKey (r : IdxRecord) (k : Nat) : Bytes :=
  r.key.take (k - 3) ++ List.replicate (tornLength r k - (r.key.take (k - 3)).length) 0

/-- The records that are whole in the first `n` bytes of the file. -/
def wholeRecords (rs : List IdxRecord) (n : Nat) : List IdxRecord := whole IdxRecord.bytes (n - 1) rs

/-- No record is cut, or the part is read as erased, or under the key of an entry. -/
def Harmless (indet : UInt8) (rs : List IdxRecord) (n : Nat) : Prop :=
  ∀ t ∈ torn IdxRecord.bytes (n - 1) rs, tornByte indet t.1 t.2 = 0 ∨
    tornKey t.1 t.2 ∈ (validEntries 1 (wholeRecords rs n)).map Sigma.fst

instance Harmless.decidable (indet : UInt8) (rs : List IdxRecord) (n : Nat) :
    Decidable (Harmless indet rs n) :=
  inferInstanceAs (Decidable (∀ t ∈ torn IdxRecord.bytes (n - 1) rs, _ ∨ _))

theorem tornLength_eq {r : IdxRecord} {k : Nat} (hkey : r.key.length ≤ 65535) (hk : 2 ≤ k) :
    tornLength r k = r.key.length := by
  have hwidth : (image Machine.order (UInt16.ofNat r.key.length)).length ≤ k := by
    rw [image_length]
    exact hk
  rw [tornLength, List.take_of_length_le hwidth, Nat.sub_eq_zero_of_le hk, List.replicate_zero,
    List.append_nil, ofImage_image, UInt16.toNat_ofNat', Nat.mod_eq_of_lt (by omega)]

section
variable {indet : UInt8} {f : File} {pre part : Bytes} {fsize : Nat}

/-- One turn on the last bytes of the file, if they are fewer than the record they begin. -/
theorem loadIndexLoop_part (indet : UInt8) (index : Index) (fuel : Nat) (hat : f.At pre part)
    (hfsize : fsize = (pre ++ part).length) (hsize : fsize < 2 ^ 31) (hpart : part ≠ [])
    {keyLen : UInt16}
    (hkeyLen : ofImage Machine.order (part.take 2 ++ List.replicate (2 - (part.take 2).length) 0) =
      keyLen)
    (hshort : part.length < keyLen.toNat + 15) :
    ∃ f' data, IoManager.loadIndexLoop indet fsize machineEndian (fuel + 2) index f =
      some (if (part.drop 2).headD indet = 0 then index
        else IoManager.emplaceIndex index ((part.drop 3).take keyLen.toNat ++
          List.replicate (keyLen.toNat - ((part.drop 3).take keyLen.toNat).length) 0) data, f') := by
  have hlength : 0 < part.length := List.length_pos_iff.mpr hpart
  rw [List.length_append] at hfsize
  have hmax : fsize ≤ OFF_MAX := by
    rw [OFF_MAX]
    omega
  have hlong := keyLen.toNat_lt
  rw [IoManager.loadIndexLoop, hat.currOffset_eq (by omega), if_pos (by omega)]
  obtain ⟨f₁, h₁, hat₁⟩ := @File.At.readNSome _ _ _ _ UInt16 _ hat
  have hwidth : Scalar.width UInt16 = 2 := rfl
  rw [hwidth, hkeyLen] at h₁
  obtain ⟨f₂, h₂, hat₂⟩ := hat₁.readSome 1
  have hbyte : readByte indet f₁ = ((part.drop 2).headD indet, f₂) := by
    rw [readByte, h₂, hwidth]
    cases part.drop 2 <;> rfl
  simp only [h₁, hbyte]
  rw [hwidth, List.drop_drop] at hat₂
  split
  case isTrue hzero =>
    -- the skip goes past the end
    have hskip : f₂.lseekCur (keyLen.toNat + 8 + 4) =
        { f₂ with pos := f₂.pos + (keyLen.toNat + 8 + 4) } := by
      simpa only [Nat.cast_add, Nat.cast_ofNat] using lseekCur_nat f₂ (keyLen.toNat + 8 + 4)
    have hpos : f₂.pos = pre.length + min 3 part.length := by
      rw [hat₂.pos]
      simp only [List.length_append, List.length_take, List.length_drop]
      omega
    refine ⟨{ f₂ with pos := f₂.pos + (keyLen.toNat + 8 + 4) }, {}, ?_⟩
    rw [hskip]
    refine loadIndexLoop_end index fuel ?_ ?_ hmax
    · show fsize ≤ f₂.pos + (keyLen.toNat + 8 + 4)
      omega
    · show f₂.pos + (keyLen.toNat + 8 + 4) < 2 ^ 32
      omega
  case isFalse hnonzero =>
    obtain ⟨f₃, h₃, hat₃⟩ := hat₂.readSome keyLen.toNat
    obtain ⟨f₄, h₄, hat₄⟩ := @File.At.readNSome _ _ _ _ UInt64 _ hat₃
    obtain ⟨f₅, h₅, hat₅⟩ := @File.At.readNSome _ _ _ _ UInt32 _ hat₄
    simp only [h₃, h₄, h₅]
    have hpos : f₅.pos = fsize := by
      rw [hat₅.pos]
      simp only [List.length_append, List.length_take, List.length_drop, Scalar.width]
      omega
    have hsmall : f₅.pos < 2 ^ 32 := by omega
    exact ⟨f₅, _, loadIndexLoop_end _ fuel hpos.ge hsmall hmax⟩

/-! ### A part of a record -/

variable {r : IdxRecord} {k : Nat}

theorem bytes_eq (r : IdxRecord) : r.bytes = image Machine.order (UInt16.ofNat r.key.length) ++
    (if r.valid then 1 else 0) ::
      (r.key ++ (image Machine.order r.offset ++ image Machine.order r.length)) := by
  simp only [IdxRecord.bytes, IoManager.record, List.append_assoc, List.cons_append, List.nil_append]

theorem take_two (r : IdxRecord) (k : Nat) : (r.bytes.take k).take 2 =
    (image Machine.order (UInt16.ofNat r.key.length)).take k := by
  have hwidth : (image Machine.order (UInt16.ofNat r.key.length)).length = 2 := image_length _ _
  rw [List.take_take, bytes_eq, List.take_append_of_le_length (by omega), ← List.take_take]
  exact List.take_of_length_le (by rw [List.length_take]; omega)

theorem drop_two (r : IdxRecord) (k : Nat) : (r.bytes.take k).drop 2 =
    ((if r.valid then 1 else 0) ::
      (r.key ++ (image Machine.order r.offset ++ image Machine.order r.length))).take (k - 2) := by
  have hwidth : (image Machine.order (UInt16.ofNat r.key.length)).length = 2 := image_length _ _
  rw [List.drop_take, bytes_eq, List.drop_left' hwidth]

theorem tornByte_eq (indet : UInt8) (r : IdxRecord) (k : Nat) :
    ((r.bytes.take k).drop 2).headD indet = tornByte indet r k := by
  rw [drop_two, tornByte]
  by_cases hcut : k ≤ 2
  · rw [if_pos hcut, Nat.sub_eq_zero_of_le hcut]
    rfl
  · obtain ⟨n, hn⟩ := Nat.exists_eq_add_of_lt (Nat.not_le.mp hcut)
    rw [if_neg hcut, hn, show 2 + n + 1 - 2 = n + 1 by omega, List.take_succ_cons]
    rfl

theorem tornKey_eq (hkey : r.key.length ≤ 65535) :
    ((r.bytes.take k).drop 3).take (tornLength r k) = r.key.take (k - 3) := by
  have hdrop : (r.bytes.take k).drop 3 =
      (r.key ++ (image Machine.order r.offset ++ image Machine.order r.length)).take (k - 3) := by
    rw [show 3 = 2 + 1 from rfl, ← List.drop_drop, drop_two, List.drop_take, List.drop_one,
      List.tail_cons]
    rfl
  rw [hdrop, List.take_take]
  rcases Nat.lt_or_ge k 3 with hk | hk
  · rw [Nat.sub_eq_zero_of_le hk.le, Nat.min_zero, List.take_zero, List.take_zero]
  · rw [tornLength_eq hkey (by omega), List.take_append_of_le_length (Nat.min_le_left _ _),
      ← List.take_take, List.take_of_length_le (List.length_take_le' _ _)]

theorem loadIndexLoop_torn (indet : UInt8) (index : Index) (fuel : Nat) (hkey : r.key.length ≤ 65535)
    (hpos : 0 < k) (hk : k < r.bytes.length) (hat : f.At pre (r.bytes.take k))
    (hfsize : fsize = (pre ++ r.bytes.take k).length) (hsize : fsize < 2 ^ 31) :
    ∃ f' data, IoManager.loadIndexLoop indet fsize machineEndian (fuel + 2) index f =
      some (if tornByte indet r k = 0 then index
        else IoManager.emplaceIndex index (tornKey r k) data, f') := by
  have hlength : (r.bytes.take k).length = k := by
    rw [List.length_take]
    exact Nat.min_eq_left hk.le
  have htwo : ((r.bytes.take k).take 2).length = min k 2 := by
    rw [List.length_take, hlength, Nat.min_comm]
  have hshort : (r.bytes.take k).length < tornLength r k + 15 := by
    rw [hlength]
    rcases Nat.lt_or_ge k 2 with hsmall | hlarge
    · omega
    · rw [tornLength_eq hkey hlarge, ← r.bytes_length]
      exact hk
  obtain ⟨f', data, hloop⟩ := loadIndexLoop_part indet index fuel hat hfsize hsize
    (List.ne_nil_of_length_pos (by omega)) rfl (by
      rw [htwo, take_two, show 2 - min k 2 = 2 - k by omega]
      exact hshort)
  refine ⟨f', data, ?_⟩
  rw [hloop, htwo, take_two, show 2 - min k 2 = 2 - k by omega, tornByte_eq]
  have hread := @tornKey_eq _ r k hkey
  rw [tornLength] at hread
  rw [hread]
  rfl

omit [Machine] in
theorem emplaceIndex_perm_iff {index : Index} {key : Bytes} (data : IndexData) :
    (IoManager.emplaceIndex index key data).entries.Perm index.entries ↔ key ∈ index := by
  constructor
  · intro hperm
    by_contra habsent
    rw [IoManager.emplaceIndex, if_neg habsent, AList.entries_insert_of_notMem habsent] at hperm
    have hlength := hperm.length_eq
    rw [List.length_cons] at hlength
    omega
  · intro hkey
    rw [IoManager.emplaceIndex, if_pos hkey]

/-- The end of the loop, over what is left of a record if one is cut. -/
theorem loadIndexLoop_tail (indet : UInt8) (index : Index) (fuel : Nat)
    {cut : Option (IdxRecord × Nat)}
    (hcut : ∀ t ∈ cut, t.1.key.length ≤ 65535 ∧ 0 < t.2 ∧ t.2 < t.1.bytes.length)
    (hat : f.At pre (cut.elim [] fun t => t.1.bytes.take t.2))
    (hfsize : fsize = (pre ++ cut.elim [] fun t => t.1.bytes.take t.2).length)
    (hsize : fsize < 2 ^ 31) :
    ∃ index' f', IoManager.loadIndexLoop indet fsize machineEndian (fuel + 2) index f =
        some (index', f') ∧
      (index'.entries.Perm index.entries ↔
        ∀ t ∈ cut, tornByte indet t.1 t.2 = 0 ∨ tornKey t.1 t.2 ∈ index) := by
  cases cut with
  | none =>
    have hpos : f.pos = fsize := by rw [hat.pos, hfsize, Option.elim_none, List.append_nil]
    have hmax : fsize ≤ OFF_MAX := by
      rw [OFF_MAX]
      omega
    refine ⟨index, f, loadIndexLoop_end index (fuel + 1) hpos.ge (by omega) hmax, ?_⟩
    constructor
    · intro _ t ht
      cases ht
    · intro _
      exact .refl _
  | some t =>
    obtain ⟨hkey, hpos, hk⟩ := hcut t rfl
    obtain ⟨f', data, hloop⟩ := loadIndexLoop_torn indet index fuel hkey hpos hk hat hfsize hsize
    refine ⟨_, f', hloop, ?_⟩
    have hsome : ∀ P : IdxRecord × Nat → Prop, (∀ u ∈ some t, P u) ↔ P t := fun P => by simp
    rw [hsome]
    by_cases hzero : tornByte indet t.1 t.2 = 0
    · rw [if_pos hzero]
      exact ⟨fun _ => .inl hzero, fun _ => .refl _⟩
    · rw [if_neg hzero, emplaceIndex_perm_iff, or_iff_right hzero]

end

section
variable {file : Bytes} {index : Index} {rs : List IdxRecord}

theorem Recorded.take (h : Recorded file index rs) {n : Nat} (hpos : 0 < n) :
    file.take n = [machineEndian] ++ ((wholeRecords rs n).flatMap IdxRecord.bytes ++
      (torn IdxRecord.bytes (n - 1) rs).elim [] fun t => t.1.bytes.take t.2) := by
  obtain ⟨m, rfl⟩ := Nat.exists_eq_add_of_lt hpos
  rw [h.file_eq, idxFile, List.singleton_append, Nat.zero_add, List.take_succ_cons, take_flatMap]
  rfl

theorem Recorded.whole_nodup (h : Recorded file index rs) (n : Nat) :
    (validEntries 1 (wholeRecords rs n)).NodupKeys := by
  obtain ⟨rest, hrest⟩ := @whole_isPrefix _ _ IdxRecord.bytes (n - 1) rs
  have hnodup := (List.perm_nodupKeys h.entries).mpr index.nodupKeys
  rw [← hrest, validEntries_append] at hnodup
  exact hnodup.sublist (List.sublist_append_left _ _)

theorem Recorded.loop_take (h : Recorded file index rs) (hsize : file.length < 2 ^ 31) {n : Nat}
    (hpos : 0 < n) (indet : UInt8) {f : File} (hbytes : f.bytes = file.take n) (hstart : f.pos = 1) :
    ∃ index' f', IoManager.loadIndexLoop indet f.size machineEndian (f.size + 1) ∅ f =
        some (index', f') ∧
      (index'.entries.Perm (validEntries 1 (wholeRecords rs n)) ↔ Harmless indet rs n) := by
  have hfile := hbytes.trans (h.take hpos)
  have hsmall : f.size < 2 ^ 31 := by
    rw [File.size, hbytes]
    exact (List.length_take_le' _ _).trans_lt hsize
  have hlength := congrArg List.length (hfile.trans (List.append_assoc _ _ _).symm)
  have hinside : ([machineEndian] ++ (wholeRecords rs n).flatMap IdxRecord.bytes).length ≤
      f.size := by
    rw [File.size, hlength]
    exact (List.prefix_append _ _).length_le
  have hcount : 1 * (wholeRecords rs n).length ≤
      ((wholeRecords rs n).flatMap IdxRecord.bytes).length :=
    length_le_flatMap (fun r => by rw [r.bytes_length]; omega) _
  have hfuel : (wholeRecords rs n).length + 1 ≤ f.size := by
    rw [List.length_append, List.length_singleton] at hinside
    omega
  obtain ⟨more, hmore⟩ := Nat.exists_eq_add_of_le hfuel
  have hkeys : ∀ r ∈ wholeRecords rs n, r.key.length ≤ 65535 := fun r hr =>
    h.keys_le r ((whole_isPrefix (n - 1) rs).subset hr)
  have hcut : ∀ t ∈ torn IdxRecord.bytes (n - 1) rs,
      t.1.key.length ≤ 65535 ∧ 0 < t.2 ∧ t.2 < t.1.bytes.length := by
    intro t ht
    obtain ⟨hmem, hin⟩ := torn_eq_some (Option.mem_def.mp ht)
    exact ⟨h.keys_le t.1 hmem, hin⟩
  obtain ⟨f₁, hat₁, hahead⟩ := loadIndexLoop_ahead indet ∅ hsmall hkeys (more + 2)
    ⟨hfile, hstart⟩ hinside
  obtain ⟨index', f₂, htail, hiff⟩ := loadIndexLoop_tail indet _ more hcut hat₁ hlength hsmall
  refine ⟨index', f₂, ?_, ?_⟩
  · rw [show f.size + 1 = more + 2 + (wholeRecords rs n).length by omega]
    exact hahead.trans htail
  · -- the records before the cut are loaded as they stand
    have hloaded := foldl_emplaceIndex (h.whole_nodup n) fun e _ => AList.notMem_empty e.1
    rw [AList.empty_entries, List.append_nil] at hloaded
    refine (hloaded.congr_right _).symm.trans (hiff.trans ?_)
    refine forall₂_congr fun t _ => or_congr_right ?_
    exact (hloaded.map Sigma.fst).mem_iff

/-- Loading the first bytes of the file gives the whole records in them if and only if the cut is
harmless. -/
theorem Recorded.loadIndex_take (h : Recorded file index rs) (hsize : file.length < 2 ^ 31)
    {n : Nat} (hpos : 0 < n) (indet : UInt8) {ctx : DBContext} (hempty : ctx.index = ∅)
    {im : IoManager} (hbytes : im.idx.bytes = file.take n) :
    ∃ ctx' im', IoManager.loadIndex indet ctx im.openFiles = some (.success, ctx', im') ∧
      (ctx'.index.entries.Perm (validEntries 1 (wholeRecords rs n)) ↔ Harmless indet rs n) := by
  obtain ⟨f, hendian, hsame, hstart⟩ := handleEndian_header indet (hbytes.trans (h.take hpos))
  obtain ⟨index', f', hloop, hiff⟩ := h.loop_take hsize hpos indet (hsame.trans hbytes) hstart
  rw [File.size, hsame] at hloop
  refine ⟨{ ctx with index := index' }, { im.openFiles with idx := f' }, ?_, hiff⟩
  refine Option.bind_eq_some_iff.mpr ⟨_, hendian, ?_⟩
  rw [hempty]
  exact Option.bind_eq_some_iff.mpr ⟨_, hloop, rfl⟩

end

end

namespace DB

/-- For every state reached and every cut of its index file: the load of what is left ends, and
what it answers agrees with the records that are whole if and only if the cut is harmless. -/
theorem loadIndex_torn_iff [Machine] {indet₀ : UInt8} {name : Bytes} {options : Options}
    {r : Result} {db₀ db : DB} {trace : List (Op × Result)}
    (hopen : (new name options).open indet₀ = some (r, db₀))
    (hrun : Run (Steps DB.apply fun _ op => op.ShortKey) db₀ trace db)
    (hsize : db.im.idx.size < 2 ^ 31) :
    db.IndexRecorded ∧ ∀ rs, Recorded db.im.idx.bytes db.ctx.index rs →
      ∀ n, 0 < n → n ≤ db.im.idx.size → ∀ indet (ctx : DBContext) (im : IoManager), ctx.index = ∅ →
        im.idx.bytes = db.im.idx.bytes.take n →
        ∃ ret ctx' im', IoManager.loadIndex indet ctx im.openFiles = some (ret, ctx', im') ∧
          ((ret = .success → ctx'.index.entries.Perm (validEntries 1 (wholeRecords rs n))) ↔
            Harmless indet rs n) := by
  refine ⟨indexRecorded_run hopen hrun hsize, ?_⟩
  intro rs hrec n hpos _ indet ctx im hempty hbytes
  obtain ⟨ctx', im', hload, hiff⟩ := hrec.loadIndex_take hsize hpos indet hempty hbytes
  refine ⟨.success, ctx', im', hload, ?_⟩
  rw [← hiff]
  exact ⟨fun h => h rfl, fun h _ => h⟩

section
attribute [local instance] littleEndian

/-- The second record of the file is cut after its key length. -/
theorem loadIndex_torn_second : ∃ trace db,
    Run (Steps DB.apply fun _ op => op.ShortKey) (opened [] {}) trace db ∧
      db.im.idx.bytes = idxFile [⟨true, [97], 0, 1⟩, ⟨true, [98], 1, 1⟩] ∧
      ∀ im : IoManager, im.idx.bytes = db.im.idx.bytes.take 19 →
        ∃ ret ctx' im', IoManager.loadIndex 0 { name := [], options := {} } im.openFiles =
            some (ret, ctx', im') ∧
          (ret = .success → ctx'.index.entries.Perm (validEntries 1 [⟨true, [97], 0, 1⟩])) := by
  have hrun : ∃ trace db, Run (Steps DB.apply fun _ op => op.ShortKey) (opened [] {}) trace db ∧
      (db.im.idx.bytes = idxFile [⟨true, [97], 0, 1⟩, ⟨true, [98], 1, 1⟩] ∧
        (validEntries 1 [⟨true, [97], 0, 1⟩, ⟨true, [98], 1, 1⟩]).Perm db.ctx.index.entries) :=
    exists_run [.set [97] [1], .set [98] [2]] (by decide) (by decide)
  obtain ⟨trace, db, hrun, hfile, hentries⟩ := hrun
  have hsize : db.im.idx.size = 33 := by
    rw [File.size, hfile]
    rfl
  have hcut := (loadIndex_torn_iff (open_new 0 [] {}) hrun (by omega)).2 _
    ⟨hfile, by decide, hentries⟩ 19 (by decide) (by omega) 0 { name := [], options := {} }
  refine ⟨trace, db, hrun, hfile, ?_⟩
  intro im hbytes
  obtain ⟨ret, ctx', im', hload, hiff⟩ := hcut im rfl hbytes
  exact ⟨ret, ctx', im', hload, hiff.mpr (by decide)⟩

/-- The only record is cut before its length: its key is loaded. -/
theorem loadIndex_torn_loaded : ¬ ∀ trace db,
    Run (Steps DB.apply fun _ _ => True) (opened [] {}) trace db →
      ∀ rs, db.im.idx.bytes = idxFile rs → ∀ n, 0 < n → n ≤ db.im.idx.size →
        ∀ im : IoManager, im.idx.bytes = db.im.idx.bytes.take n →
          ∃ ret ctx' im', IoManager.loadIndex 0 { name := [], options := {} } im.openFiles =
              some (ret, ctx', im') ∧
            (ret = .success → ctx'.index.entries.Perm (validEntries 1 (wholeRecords rs n))) := by
  have hrun : ∃ trace db, Run (Steps DB.apply fun _ _ => True) (opened [] {}) trace db ∧
      db.im.idx.bytes = idxFile [⟨true, [97], 0, 1⟩] :=
    exists_run [.set [97] [1]] (by decide) (by decide)
  intro hall
  obtain ⟨trace, db, hrun, hfile⟩ := hrun
  have hsize : db.im.idx.size = 17 := by
    rw [File.size, hfile]
    rfl
  obtain ⟨ret, ctx, im, hload, hperm⟩ := hall trace db hrun _ hfile 13 (by decide) (by omega)
    ⟨.empty, ⟨(idxFile [⟨true, [97], 0, 1⟩]).take 13, 0, by decide⟩, .empty⟩ (by rw [hfile])
  have hkeys : ∀ r ∈ IoManager.loadIndex 0 { name := [], options := {} }
      (IoManager.openFiles ⟨.empty, ⟨(idxFile [⟨true, [97], 0, 1⟩]).take 13, 0, by decide⟩, .empty⟩),
      r.1 = .success ∧ r.2.1.index.entries.length = 1 := by decide
  obtain ⟨hsuccess, hcount⟩ := hkeys _ hload
  have hempty : (validEntries 1 (wholeRecords [⟨true, [97], 0, 1⟩] 13)).length = 0 := by decide
  have hlength := (hperm hsuccess).length_eq
  rw [hempty] at hlength
  exact absurd (hcount.symm.trans hlength) Nat.one_ne_zero

end

end DB

end Ambry
