import Ambry.Lib.FreePersistence
import Ambry.Lib.Ledger

/-!
# Reusing free space

A value was meant to go to the shortest free extent that it fits into, of which
the unused end stays free. The search passes over the extents of exactly its
length, and the extent that is found leaves the list with all others of its
length.
-/

namespace Ambry

open Foundation

/-- Every entry is shorter than `n` bytes. -/
def TooShort (l : FreeList) (n : Nat) : Prop := ∀ entry ∈ l.entries, entry.1.toNat < n

instance (l : FreeList) (n : Nat) : Decidable (TooShort l n) :=
  inferInstanceAs (Decidable (∀ entry ∈ l.entries, _ < n))

/-- The entry that stays for the unused end of an extent. -/
def unusedEnd (entry : UInt32 × FreeEntry) (n : Nat) (slot : UInt32) : List (UInt32 × FreeEntry) :=
  if entry.1.toNat = n then [] else [(restLength entry n, ⟨restOffset entry n, slot⟩)]

/-- The value lies at the beginning of a free extent, one of the shortest that have room for it. -/
structure Placed (ctx : DBContext) (im : IoManager) (value : Bytes) (entry : UInt32 × FreeEntry)
    (off : UInt64) (ctx' : DBContext) (im' : IoManager) : Prop where
  mem : entry ∈ ctx.freeList.entries
  fits : value.length ≤ entry.1.toNat
  shortest : ∀ other ∈ ctx.freeList.entries, value.length ≤ other.1.toNat → entry.1 ≤ other.1
  offset : off = entry.2.offset
  dat : im'.dat.bytes = splice 0 im.dat.bytes off.toNat value
  freeList : ∃ slot, (entry :: ctx'.freeList.entries).Perm
    (unusedEnd entry value.length slot ++ ctx.freeList.entries)

/-- The data file grows only where every free extent is too short, and otherwise one is used. -/
def Reuses (ctx : DBContext) (im : IoManager) (value : Bytes) (off : UInt64) (ctx' : DBContext)
    (im' : IoManager) : Prop :=
  (im.dat.size < im'.dat.size → TooShort ctx.freeList value.length) ∧
    (¬ TooShort ctx.freeList value.length → ∃ entry, Placed ctx im value entry off ctx' im')

/-- The only extent of the shortest lengths that have room for the value is longer than the value,
and lies inside the data file. -/
structure Recyclable (ctx : DBContext) (im : IoManager) (value : Bytes)
    (entry : UInt32 × FreeEntry) : Prop where
  alone : (ctx.freeList.entries.filter fun other =>
    value.length ≤ other.1.toNat ∧ other.1 ≤ entry.1) = [entry]
  longer : value.length < entry.1.toNat
  offset : entry.2.offset ≠ npos
  inside : value = [] ∨ entry.2.offset.toNat + value.length ≤ im.dat.size

variable {l : FreeList} {n : Nat} {entry other : UInt32 × FreeEntry}

/-- The entry that is found is one of the shortest among the longer ones. -/
theorem firstLonger_shortest (hfind : RW.firstLonger l n = some entry) (hmem : other ∈ l.entries)
    (hlonger : n < other.1.toNat) : entry.1 ≤ other.1 := by
  obtain ⟨_, before, after, hentries, hbefore⟩ := List.find?_eq_some_iff_append.mp hfind
  have hsorted := l.sorted
  rw [hentries] at hmem hsorted
  obtain hmem | hmem := List.mem_append.mp hmem
  · have hnot := hbefore other hmem
    simp only [Bool.not_eq_true', decide_eq_false_iff_not] at hnot
    exact absurd hlonger hnot
  · obtain rfl | hmem := List.mem_cons.mp hmem
    · exact le_refl _
    · obtain ⟨_, htail, _⟩ := List.pairwise_append.mp hsorted
      exact (List.pairwise_cons.mp htail).1 other hmem

theorem firstLonger_eq_none (hfind : RW.firstLonger l n = none) (hmem : entry ∈ l.entries) :
    entry.1.toNat ≤ n := by
  have hnot := List.find?_eq_none.mp hfind entry hmem
  simpa using hnot

section
variable [Machine] {ctx ctx' : DBContext} {im im' : IoManager} {value : Bytes} {off : UInt64}

omit [Machine] in
theorem Recyclable.firstLonger (h : Recyclable ctx im value entry) :
    RW.firstLonger ctx.freeList value.length = some entry ∧
      SoleOfLength ctx.freeList value.length := by
  have hmem : entry ∈ ctx.freeList.entries := by
    have hmem : entry ∈ [entry] := List.mem_singleton_self entry
    rw [← h.alone] at hmem
    exact (List.mem_filter.mp hmem).1
  have hfind : RW.firstLonger ctx.freeList value.length = some entry := by
    cases hfind : RW.firstLonger ctx.freeList value.length with
    | none => exact absurd h.longer (Nat.not_lt.mpr (firstLonger_eq_none hfind hmem))
    | some found =>
      have hle := firstLonger_shortest hfind hmem h.longer
      have hfound : found ∈ ctx.freeList.entries.filter fun other =>
          value.length ≤ other.1.toNat ∧ other.1 ≤ entry.1 := by
        rw [List.mem_filter]
        exact ⟨firstLonger_mem hfind, decide_eq_true ⟨(firstLonger_lt hfind).le, hle⟩⟩
      rw [h.alone, List.mem_singleton] at hfound
      rw [hfound]
  refine ⟨hfind, ?_⟩
  intro found hfound
  obtain rfl : entry = found := Option.some.inj (hfind.symm.trans hfound)
  have hsame : (ctx.freeList.entries.filter fun other => other.1 = entry.1) =
      [entry].filter fun other => other.1 = entry.1 := by
    rw [← h.alone, List.filter_filter]
    apply List.filter_congr
    intro other _
    rw [Bool.eq_iff_iff, Bool.and_eq_true, decide_eq_true_iff, decide_eq_true_iff]
    constructor
    · intro heq
      rw [heq]
      exact ⟨rfl, h.longer.le, le_refl _⟩
    · exact And.left
  rw [hsame, List.filter_cons_of_pos (by simp)]
  rfl

theorem Allocated.list {l' : FreeList} {file file' : Bytes} {pos : UInt64}
    (h : Allocated l file n pos l' file') :
    (∃ entry, RW.firstLonger l n = some entry ∧ pos = entry.2.offset ∧ ∃ slot,
      l' = (l.erase entry.1).emplace (restLength entry n) ⟨restOffset entry n, slot⟩) ∨
    (RW.firstLonger l n = none ∧ pos = npos ∧ l' = l) := by
  cases h with
  | recycled entry hfind => exact .inl ⟨entry, hfind, rfl, _, rfl⟩
  | atEnd hfind => exact .inr ⟨hfind, rfl, rfl⟩

theorem write_appended (h : RW.write ctx im value = some (off, ctx', im'))
    (hfind : RW.firstLonger ctx.freeList value.length = none) : ctx'.freeList = ctx.freeList := by
  obtain ⟨pos, _, _, halloc, _⟩ := write_spec h
  obtain ⟨entry, hfound, _⟩ | ⟨_, _, hlist⟩ := halloc.list
  · cases hfind.symm.trans hfound
  · exact hlist

theorem write_recycled (h : RW.write ctx im value = some (off, ctx', im'))
    (hfind : RW.firstLonger ctx.freeList value.length = some entry) :
    off = landing im.dat.size entry.2.offset ∧
      im'.dat.bytes = splice 0 im.dat.bytes off.toNat value ∧
      ∃ slot, ctx'.freeList = (ctx.freeList.erase entry.1).emplace (restLength entry value.length)
        ⟨restOffset entry value.length, slot⟩ := by
  obtain ⟨pos, hoff, hw, halloc, _⟩ := write_spec h
  have hdat := hw.dat
  obtain ⟨found, hfound, rfl, hlist⟩ | ⟨hnone, _⟩ := halloc.list
  · obtain rfl : entry = found := Option.some.inj (hfind.symm.trans hfound)
    have hlt := firstLonger_lt hfind
    have hmax : entry.1.toNat < 2 ^ 32 := entry.1.toNat_lt
    rw [← hoff, payload_eq (by omega)] at hdat
    exact ⟨hoff, hdat, hlist⟩
  · cases hfind.symm.trans hnone

omit [Machine] in
/-- With the entry that is found, all entries of its length leave the list and one comes in. -/
theorem Placed.count {found : UInt32 × FreeEntry} {slot : UInt32}
    (h : Placed ctx im value entry off ctx' im')
    (hlist : ctx'.freeList = (ctx.freeList.erase found.1).emplace (restLength found value.length)
      ⟨restOffset found value.length, slot⟩) (hne : found.1 ≠ entry.1) :
    (ctx.freeList.entries.filter fun other => other.1 = found.1).length ≤ 1 := by
  obtain ⟨slot', hperm⟩ := h.freeList
  rw [hlist] at hperm
  have hafter := ((ctx.freeList.erase found.1).emplace_perm (restLength found value.length)
    ⟨restOffset found value.length, slot⟩).cons entry
  have hsame := ((hafter.symm.trans hperm).filter fun other => other.1 = found.1).length_eq
  rw [List.filter_append, List.length_append, List.filter_cons_of_neg (by simpa using hne.symm),
    List.filter_cons, Foundation.Multimap.filter_erase fun _ => decide_eq_true_iff] at hsame
  split at hsame
  · rw [List.length_singleton] at hsame
    omega
  · rw [List.length_nil] at hsame
    omega

omit [Machine] in
theorem Placed.length {found : UInt32 × FreeEntry} {slot : UInt32}
    (h : Placed ctx im value entry off ctx' im')
    (hlist : ctx'.freeList = (ctx.freeList.erase found.1).emplace (restLength found value.length)
      ⟨restOffset found value.length, slot⟩) :
    (ctx.freeList.entries.filter fun other => other.1 = found.1).length =
      if entry.1.toNat = value.length then 2 else 1 := by
  obtain ⟨slot', hperm⟩ := h.freeList
  rw [hlist] at hperm
  have hafter := ((ctx.freeList.erase found.1).emplace_perm (restLength found value.length)
    ⟨restOffset found value.length, slot⟩).cons entry
  have hsame := (hafter.symm.trans hperm).length_eq
  have hsplit := Foundation.Multimap.erase_length (k := found.1)
    (p := fun other => other.1 = found.1) (fun _ => decide_eq_true_iff) ctx.freeList
  rw [List.length_cons, List.length_cons, List.length_append, unusedEnd] at hsame
  split at hsame
  · rw [if_pos (by assumption)]
    rw [List.length_nil] at hsame
    omega
  · rw [if_neg (by assumption)]
    rw [List.length_singleton] at hsame
    omega

omit [Machine] in
theorem size_lt_npos (f : File) : f.size < npos.toNat := by
  have hle : f.bytes.length ≤ OFF_MAX := f.size_le
  have hmax : OFF_MAX < npos.toNat := by decide
  exact Nat.lt_of_le_of_lt hle hmax

/-- No value goes to an extent of exactly its length. -/
theorem Placed.longer {used : UInt32 × FreeEntry} (h : Placed ctx im value used off ctx' im')
    (hwrite : RW.write ctx im value = some (off, ctx', im'))
    (hfind : RW.firstLonger ctx.freeList value.length = some entry) :
    value.length < used.1.toNat := by
  apply Nat.lt_of_le_of_ne h.fits
  intro hexact
  obtain ⟨_, _, slot, hlist⟩ := write_recycled hwrite hfind
  have hlonger := firstLonger_lt hfind
  have hne : entry.1 ≠ used.1 := by
    intro heq
    rw [heq] at hlonger
    omega
  have hlength := h.length hlist
  have hcount := h.count hlist hne
  rw [hlength, if_pos hexact.symm] at hcount
  omega

theorem Placed.only {used : UInt32 × FreeEntry} (h : Placed ctx im value used off ctx' im')
    (hwrite : RW.write ctx im value = some (off, ctx', im'))
    (hfind : RW.firstLonger ctx.freeList value.length = some entry) :
    ctx.freeList.entries.filter (fun other => other.1 = entry.1) = [entry] ∧ used = entry := by
  obtain ⟨_, _, slot, hlist⟩ := write_recycled hwrite hfind
  have hmem := firstLonger_mem hfind
  have hlonger := h.longer hwrite hfind
  have hsame : used.1 = entry.1 := by
    apply le_antisymm (h.shortest entry hmem (firstLonger_lt hfind).le)
    exact firstLonger_shortest hfind h.mem hlonger
  have hlength := h.length hlist
  rw [if_neg hlonger.ne'] at hlength
  obtain ⟨only, honly⟩ := List.length_eq_one_iff.mp hlength
  have hunique : ∀ other ∈ ctx.freeList.entries, other.1 = entry.1 → other = only := by
    intro other hother heq
    apply List.mem_singleton.mp
    rw [← honly, List.mem_filter]
    exact ⟨hother, decide_eq_true heq⟩
  obtain rfl := hunique entry hmem rfl
  exact ⟨honly, hunique used h.mem hsame⟩

/-- The entry that is found is the one that was to be used, and no other has its length. -/
theorem Placed.recyclable {used : UInt32 × FreeEntry}
    (h : RW.write ctx im value = some (off, ctx', im'))
    (hfind : RW.firstLonger ctx.freeList value.length = some entry)
    (hstays : im'.dat.size ≤ im.dat.size) (hused : Placed ctx im value used off ctx' im') :
    Recyclable ctx im value entry := by
  obtain ⟨hoff, hdat, _⟩ := write_recycled h hfind
  have hlonger := firstLonger_lt hfind
  obtain ⟨honly, rfl⟩ := hused.only h hfind
  constructor
  · rw [← honly]
    apply List.filter_congr
    intro other hother
    rw [decide_eq_decide]
    constructor
    · rintro ⟨hother_fits, hle⟩
      exact le_antisymm hle (hused.shortest other hother hother_fits)
    · intro heq
      rw [heq]
      exact ⟨hlonger.le, le_refl _⟩
  · exact hlonger
  · intro hpos
    have hland := hoff.symm.trans hused.offset
    rw [hpos] at hland
    have hsize := landing_npos im.dat.size_le
    have hlt := size_lt_npos im.dat
    rw [← File.size, hland] at hsize
    omega
  · rw [← hused.offset]
    rcases eq_or_ne value [] with hnil | hne
    · exact .inl hnil
    · right
      have hstop := stop_le_splice 0 im.dat.bytes off.toNat hne
      rw [← hdat] at hstop
      exact hstop.trans hstays

/-- What is found can be used exactly where it is as it was meant to be. -/
theorem write_recycled_iff (h : RW.write ctx im value = some (off, ctx', im'))
    (hfind : RW.firstLonger ctx.freeList value.length = some entry) :
    Reuses ctx im value off ctx' im' ↔ Recyclable ctx im value entry := by
  obtain ⟨hoff, hdat, slot, hlist⟩ := write_recycled h hfind
  have hlonger := firstLonger_lt hfind
  have hmem := firstLonger_mem hfind
  have hroom : ¬ TooShort ctx.freeList value.length := by
    intro hshort
    exact Nat.lt_asymm hlonger (hshort entry hmem)
  constructor
  · rintro ⟨hgrows, hplaced⟩
    obtain ⟨used, hused⟩ := hplaced hroom
    exact hused.recyclable h hfind (Nat.le_of_not_lt fun hlt => hroom (hgrows hlt))
  · intro hrec
    have hland : off = entry.2.offset := hoff.trans (if_neg hrec.offset)
    have hstays : im'.dat.size = im.dat.size := by
      rw [File.size, hdat, hland]
      obtain rfl | hinside := hrec.inside
      · rfl
      · have hsize : im.dat.size = im.dat.bytes.length := rfl
        rw [splice_length (by omega)]
        omega
    refine ⟨fun hgrows => absurd hstays hgrows.ne', fun _ => ⟨entry, ?_⟩⟩
    refine ⟨hmem, hlonger.le, ?_, hland, hdat, slot, ?_⟩
    · intro other hother hfits
      rcases le_total entry.1 other.1 with hle | hle
      · exact hle
      · have hfilter : other ∈ [entry] := by
          rw [← hrec.alone, List.mem_filter]
          exact ⟨hother, decide_eq_true ⟨hfits, hle⟩⟩
        rw [List.mem_singleton.mp hfilter]
    · have hsole := hrec.firstLonger.2.erase_perm hfind
      rw [hlist, unusedEnd, if_neg hlonger.ne']
      apply ((Foundation.Multimap.emplace_perm _ _ _).cons entry).trans
      exact (List.Perm.swap _ _ _).trans (hsole.symm.cons _)

/-- A value that fits into a free extent is put there as it was meant to be exactly where one extent
stands alone: the shortest longer one, with none of the length of the value. -/
theorem write_reuses_iff (h : RW.write ctx im value = some (off, ctx', im')) :
    Reuses ctx im value off ctx' im' ↔
      TooShort ctx.freeList value.length ∨ ∃ entry, Recyclable ctx im value entry := by
  cases hfind : RW.firstLonger ctx.freeList value.length with
  | some entry =>
    rw [write_recycled_iff h hfind]
    constructor
    · intro hrec
      exact .inr ⟨entry, hrec⟩
    · rintro (hshort | ⟨other, hrec⟩)
      · exact absurd (firstLonger_lt hfind) (Nat.lt_asymm (hshort entry (firstLonger_mem hfind)))
      · obtain rfl : other = entry := Option.some.inj (hrec.firstLonger.1.symm.trans hfind)
        exact hrec
  | none =>
    constructor
    · rintro ⟨_, hplaced⟩
      left
      by_contra hroom
      obtain ⟨used, hused⟩ := hplaced hroom
      have hexact := le_antisymm (firstLonger_eq_none hfind hused.mem) hused.fits
      obtain ⟨slot, hperm⟩ := hused.freeList
      have hlength := hperm.length_eq
      rw [write_appended h hfind, unusedEnd, if_pos hexact, List.nil_append,
        List.length_cons] at hlength
      omega
    · rintro (hshort | ⟨other, hrec⟩)
      · exact ⟨fun _ => hshort, fun hroom => absurd hshort hroom⟩
      · cases hfind.symm.trans hrec.firstLonger.1

end

section
attribute [local instance] littleEndian

/-- One byte goes to an extent of three that has been freed. -/
theorem write_reuses_first : ∃ ctx im off ctx' im', RW.write ctx im [9] = some (off, ctx', im') ∧
    Reuses ctx im [9] off ctx' im' ∧ ¬ TooShort ctx.freeList 1 := by
  have hrun : ∃ trace db, Run (Steps DB.apply fun _ _ => True) (DB.opened [] {}) trace db ∧
      db.ctx.freeList.entries = [(3, ⟨0, 1⟩)] ∧ db.im.dat.size = 3 ∧
        ∃ out ∈ RW.write db.ctx db.im [9], out.1 = 0 :=
    exists_run [.set [97] [1, 2, 3], .erase [97]] (by decide +kernel) (by decide +kernel)
  obtain ⟨trace, db, _, hentries, hsize, ⟨off, ctx', im'⟩, hwrite, _⟩ := hrun
  have hrec : Recyclable db.ctx db.im [9] (3, ⟨0, 1⟩) := by
    refine ⟨?_, by decide, by decide, .inr ?_⟩
    · rw [hentries]
      decide
    · rw [hsize]
      decide
  refine ⟨db.ctx, db.im, off, ctx', im', hwrite, (write_reuses_iff hwrite).mpr (.inr ⟨_, hrec⟩), ?_⟩
  rw [TooShort, hentries]
  decide

/-- A freed extent of exactly one byte is passed over, and the file grows. -/
theorem write_reuses_not : ¬ ∀ ctx im value off ctx' im',
    RW.write ctx im value = some (off, ctx', im') → Reuses ctx im value off ctx' im' := by
  have hrun : ∃ trace db, Run (Steps DB.apply fun _ _ => True) (DB.opened [] {}) trace db ∧
      ∃ out ∈ RW.write db.ctx db.im [9],
        db.im.dat.size < out.2.2.dat.size ∧ ¬ TooShort db.ctx.freeList 1 :=
    exists_run [.set [97] [1], .erase [97]] (by decide +kernel) (by decide +kernel)
  intro hall
  obtain ⟨trace, db, _, ⟨off, ctx', im'⟩, hwrite, hgrows, hroom⟩ := hrun
  exact hroom ((hall _ _ _ _ _ _ hwrite).1 hgrows)

end

end Ambry
