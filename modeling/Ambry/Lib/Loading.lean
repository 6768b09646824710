import Ambry.Lib.Opening

/-!
# Loading ends

Every turn of the loading loops takes at least one byte off the file, whatever
the file holds, and a turn moves the descriptor by less than `2 ^ 17` bytes. The
position read back as an `int` is the position of the descriptor below `2 ^ 31`
and a huge number for the next `2 ^ 31` positions, so the loops stop at the
latest there: opening a database always returns.
-/

namespace Ambry

open Foundation

/-- A read or a skip leaves the file alone and moves the descriptor by at most `n` bytes, by at least one
where it stands inside the file. -/
structure Reads (n : Nat) (f f' : File) : Prop where
  bytes_eq : f'.bytes = f.bytes
  pos_le : f.pos ≤ f'.pos
  pos_lt : f.pos < f.size → 0 < n → f.pos < f'.pos
  le_add : f'.pos ≤ f.pos + n

theorem Reads.size_eq {n : Nat} {f f' : File} (h : Reads n f f') : f'.size = f.size :=
  congrArg List.length h.bytes_eq

theorem Reads.trans {m n : Nat} {f f' f'' : File} (h : Reads m f f') (h' : Reads n f' f'') :
    Reads (m + n) f f'' := by
  have hsize := h.size_eq
  have hback := h.pos_le
  have hback' := h'.pos_le
  have hle := h.le_add
  have hle' := h'.le_add
  refine ⟨h'.bytes_eq.trans h.bytes_eq, by omega, fun hinside hpositive => ?_, by omega⟩
  rcases Nat.eq_zero_or_pos m with hm | hm
  · have hlt := h'.pos_lt (by omega) (by omega)
    omega
  · have hlt := h.pos_lt hinside hm
    omega

theorem reads_read {n : Nat} {f f' : File} {got : Bytes} (h : f.read n = (got, f')) :
    Reads n f f' := by
  have hpos : (f.read n).2.pos = f.pos + min n (f.size - f.pos) := by
    simp [File.read, window, File.size]
  have hbytes : (f.read n).2.bytes = f.bytes := rfl
  rw [h] at hpos hbytes
  dsimp only at hpos hbytes
  exact ⟨hbytes, by omega, by omega, by omega⟩

theorem reads_readByte {indet b : UInt8} {f f' : File} (h : readByte indet f = (b, f')) :
    Reads 1 f f' := by
  obtain ⟨_, rfl⟩ := Prod.mk.inj h
  exact reads_read (Prod.eta _).symm

theorem lseekCur_nat (f : File) (n : Nat) : f.lseekCur n = { f with pos := f.pos + n } := by
  rw [File.lseekCur, if_pos (by omega)]
  rfl

theorem reads_skip (f : File) (n : Nat) : Reads n f (f.lseekCur n) := by
  rw [lseekCur_nat]
  exact ⟨rfl, Nat.le_add_right _ _, fun _ hn => Nat.lt_add_of_pos_right hn, Nat.le_refl _⟩

/-- While a loop goes on, the position read back is the position of the descriptor. -/
theorem pos_lt_of_currOffset {f : File} {n : Nat} (hpos : f.pos < 2 ^ 32) (hn : n ≤ OFF_MAX)
    (h : currOffset f < n) : f.pos < 2 ^ 31 ∧ f.pos < n := by
  rw [currOffset, Nat.mod_eq_of_lt hpos] at h
  rw [OFF_MAX] at hn
  split at h
  · exact ⟨by assumption, h⟩
  · omega

variable [Machine]

theorem reads_readN {T : Type} [Scalar T] {f f' : File} {endian : UInt8} {x : T}
    (h : readN T f endian = (x, f')) : Reads (Scalar.width T) f f' := by
  obtain ⟨_, rfl⟩ := Prod.mk.inj h
  exact reads_read (Prod.eta _).symm

section
variable (indet endian : UInt8) (fsize : Nat)

/-- One turn of the loop of `load_free`. -/
theorem loadFreeLoop_turn (fuel : Nat) (l : FreeList) {f : File} (hinside : currOffset f < fsize) :
    ∃ n l' f', 0 < n ∧ n < 2 ^ 17 ∧ Reads n f f' ∧
      IoManager.loadFreeLoop fsize endian (fuel + 1) l f =
        IoManager.loadFreeLoop fsize endian fuel l' f' := by
  rw [IoManager.loadFreeLoop, if_pos hinside]
  cases hoffset : readN UInt64 f endian with
  | mk offset f₁ =>
  cases hlength : readN UInt32 f₁ endian with
  | mk length f₂ =>
  have hreads := (reads_readN hoffset).trans (reads_readN hlength)
  simp only [hlength]
  split
  · exact ⟨_, _, _, by decide, by decide, hreads, rfl⟩
  · exact ⟨_, _, _, by decide, by decide, hreads, rfl⟩

/-- One turn of the loop of `load_index`. -/
theorem loadIndexLoop_turn (fuel : Nat) (index : Index) {f : File} (hinside : currOffset f < fsize) :
    ∃ n index' f', 0 < n ∧ n < 2 ^ 17 ∧ Reads n f f' ∧
      IoManager.loadIndexLoop indet fsize endian (fuel + 1) index f =
        IoManager.loadIndexLoop indet fsize endian fuel index' f' := by
  rw [IoManager.loadIndexLoop, if_pos hinside]
  cases hkeyLen : readN UInt16 f endian with
  | mk keyLen f₁ =>
  cases hvalid : readByte indet f₁ with
  | mk isValid f₂ =>
  have hlong := keyLen.toNat_lt
  have hwidth : Scalar.width UInt16 = 2 := rfl
  have hhead := (reads_readN hkeyLen).trans (reads_readByte hvalid)
  simp only [hvalid]
  split
  · -- an erased record is skipped without a look at what it holds
    have hskip := hhead.trans (reads_skip f₂ (keyLen.toNat + 8 + 4))
    rw [Nat.cast_add, Nat.cast_add, Nat.cast_ofNat, Nat.cast_ofNat] at hskip
    exact ⟨_, _, _, by omega, by omega, hskip, rfl⟩
  · cases hkey : f₂.read keyLen.toNat with
    | mk got f₃ =>
    cases hoffset : readN UInt64 f₃ endian with
    | mk offset f₄ =>
    cases hlength : readN UInt32 f₄ endian with
    | mk length f₅ =>
    have hwidth₄ : Scalar.width UInt64 = 8 := rfl
    have hwidth₅ : Scalar.width UInt32 = 4 := rfl
    have hentry := ((reads_read hkey).trans (reads_readN hoffset)).trans (reads_readN hlength)
    exact ⟨_, _, _, by omega, by omega, hhead.trans hentry, rfl⟩

theorem loadFreeLoop_isSome (fuel : Nat) (l : FreeList) (f : File) (hfsize : fsize ≤ f.size)
    (hpos : f.pos < 2 ^ 31 + 2 ^ 17) (hfuel : fsize < fuel + f.pos) (hpositive : 0 < fuel) :
    (IoManager.loadFreeLoop fsize endian fuel l f).isSome := by
  induction fuel generalizing l f with
  | zero => omega
  | succ fuel ih =>
    by_cases hinside : currOffset f < fsize
    · obtain ⟨hsmall, hlt⟩ := pos_lt_of_currOffset (by omega) (hfsize.trans f.size_le) hinside
      obtain ⟨n, l', f', hn, hlong, hreads, hturn⟩ := loadFreeLoop_turn endian fsize fuel l hinside
      have hmoved := hreads.pos_lt (hlt.trans_le hfsize) hn
      have hsize := hreads.size_eq
      have hle := hreads.le_add
      rw [hturn]
      exact ih _ _ (by omega) (by omega) (by omega) (by omega)
    · rw [IoManager.loadFreeLoop, if_neg hinside]
      rfl

theorem loadIndexLoop_isSome (fuel : Nat) (index : Index) (f : File) (hfsize : fsize ≤ f.size)
    (hpos : f.pos < 2 ^ 31 + 2 ^ 17) (hfuel : fsize < fuel + f.pos) (hpositive : 0 < fuel) :
    (IoManager.loadIndexLoop indet fsize endian fuel index f).isSome := by
  induction fuel generalizing index f with
  | zero => omega
  | succ fuel ih =>
    by_cases hinside : currOffset f < fsize
    · obtain ⟨hsmall, hlt⟩ := pos_lt_of_currOffset (by omega) (hfsize.trans f.size_le) hinside
      obtain ⟨n, index', f', hn, hlong, hreads, hturn⟩ :=
        loadIndexLoop_turn indet endian fsize fuel index hinside
      have hmoved := hreads.pos_lt (hlt.trans_le hfsize) hn
      have hsize := hreads.size_eq
      have hle := hreads.le_add
      rw [hturn]
      exact ih _ _ (by omega) (by omega) (by omega) (by omega)
    · rw [IoManager.loadIndexLoop, if_neg hinside]
      rfl

theorem loadFreeLoop_bytes {fuel : Nat} {l l' : FreeList} {f f' : File}
    (h : IoManager.loadFreeLoop fsize endian fuel l f = some (l', f')) : f'.bytes = f.bytes := by
  induction fuel generalizing l f with
  | zero => cases h
  | succ fuel ih =>
    by_cases hinside : currOffset f < fsize
    · obtain ⟨_, _, _, _, _, hreads, hturn⟩ := loadFreeLoop_turn endian fsize fuel l hinside
      exact (ih (hturn ▸ h)).trans hreads.bytes_eq
    · rw [IoManager.loadFreeLoop, if_neg hinside] at h
      cases h
      rfl

theorem loadIndexLoop_bytes {fuel : Nat} {index index' : Index} {f f' : File}
    (h : IoManager.loadIndexLoop indet fsize endian fuel index f = some (index', f')) :
    f'.bytes = f.bytes := by
  induction fuel generalizing index f with
  | zero => cases h
  | succ fuel ih =>
    by_cases hinside : currOffset f < fsize
    · obtain ⟨_, _, _, _, _, hreads, hturn⟩ :=
        loadIndexLoop_turn indet endian fsize fuel index hinside
      exact (ih (hturn ▸ h)).trans hreads.bytes_eq
    · rw [IoManager.loadIndexLoop, if_neg hinside] at h
      cases h
      rfl

end

theorem handleEndian_total (indet : UInt8) (f : File) :
    ∃ f', handleEndian indet (f.lseekSet 0) = some (f.bytes.headD indet, f') ∧
      f'.bytes = splice 0 f.bytes 0 [machineEndian] ∧ f'.pos = 1 := by
  obtain ⟨g, hbytes, hpos, heq⟩ := handleEndian_eq indet f
  have hlen : (splice 0 f.bytes 0 [machineEndian]).length ≤ OFF_MAX := by
    have hle := f.size_le
    have hone : 1 ≤ OFF_MAX := by decide
    rw [splice_length (Nat.zero_le _), List.length_singleton]
    omega
  have hwrite : g.write [machineEndian] = some ⟨splice 0 f.bytes 0 [machineEndian], 1, hlen⟩ :=
    File.write_eq_some.mpr ⟨by rw [hbytes, hpos], by rw [hpos]; rfl⟩
  exact ⟨_, by rw [heq, hwrite]; rfl, rfl, rfl⟩

theorem loadIndex_total (indet : UInt8) (ctx : DBContext) (im : IoManager) (hstart : im.idx.pos = 0) :
    ∃ index idx, IoManager.loadIndex indet ctx im =
      some (.success, { ctx with index }, { im with idx }) := by
  obtain ⟨f, hendian, hbytes, hpos⟩ := handleEndian_total indet im.idx
  rw [← hstart] at hendian
  have hfsize : f.size = max im.idx.size 1 := by
    rw [File.size, hbytes, splice_length (Nat.zero_le _)]
    rfl
  obtain ⟨⟨index, idx⟩, hloop⟩ := Option.isSome_iff_exists.mp <|
    loadIndexLoop_isSome indet (im.idx.bytes.headD indet) im.idx.size (im.idx.size + 1) ctx.index f
      (by omega) (by omega) (by omega) (by omega)
  refine ⟨index, idx, Option.bind_eq_some_iff.mpr ⟨_, hendian, ?_⟩⟩
  exact Option.bind_eq_some_iff.mpr ⟨_, hloop, rfl⟩

theorem loadFree_total (indet : UInt8) (ctx : DBContext) (im : IoManager) (hstart : im.free.pos = 0) :
    ∃ freeList free, IoManager.loadFree indet ctx im =
      some (.success, { ctx with freeList }, { im with free }) := by
  obtain ⟨f, hendian, hbytes, hpos⟩ := handleEndian_total indet im.free
  rw [← hstart] at hendian
  have hfsize : f.size = max im.free.size 1 := by
    rw [File.size, hbytes, splice_length (Nat.zero_le _)]
    rfl
  obtain ⟨⟨freeList, free⟩, hloop⟩ := Option.isSome_iff_exists.mp <|
    loadFreeLoop_isSome (im.free.bytes.headD indet) im.free.size (im.free.size + 1) ctx.freeList f
      (by omega) (by omega) (by omega) (by omega)
  refine ⟨freeList, free, Option.bind_eq_some_iff.mpr ⟨_, hendian, ?_⟩⟩
  exact Option.bind_eq_some_iff.mpr ⟨_, hloop, rfl⟩

theorem DB.open_total (indet : UInt8) (db : DB) : ∃ db', db.open indet = some (.success, db') := by
  obtain ⟨index, idx, hindex⟩ := loadIndex_total indet db.ctx db.im.openFiles rfl
  let ctx := { db.ctx with index }
  let im := { db.im.openFiles with idx }
  obtain ⟨freeList, free, hlist⟩ := loadFree_total indet (IoManager.loadDat ctx im).2.1
    (IoManager.loadDat ctx im).2.2 rfl
  have hload : IoManager.loadStructures indet db.ctx db.im = some (.success, _, _) :=
    Option.bind_eq_some_iff.mpr ⟨_, hindex, hlist⟩
  exact ⟨_, Option.bind_eq_some_iff.mpr ⟨_, hload, rfl⟩⟩

end Ambry
