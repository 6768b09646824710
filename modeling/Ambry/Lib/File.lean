import Ambry.Foundation.Splice
import Ambry.Lib.Types

/-!
# File calls

A file with the position of its descriptor. `off_t` is a signed 64-bit integer,
so no file is longer than `OFF_MAX`; a write that would pass it cannot be
complete, and the call has no result in the model. All other reads and writes
are complete.
-/

namespace Ambry

open Foundation

def OFF_MAX : Nat := 2 ^ 63 - 1

structure File where
  bytes : Bytes
  pos : Nat
  size_le : bytes.length ≤ OFF_MAX

namespace File

def empty : File := ⟨[], 0, Nat.zero_le _⟩

def size (f : File) : Nat := f.bytes.length

def read (f : File) (n : Nat) : Bytes × File :=
  let got := window f.bytes f.pos n
  (got, { f with pos := f.pos + got.length })

def lseekEnd (f : File) : File := { f with pos := f.bytes.length }

def lseekSet (f : File) (off : Nat) : File := { f with pos := off }

/-- `lseek(fd, off, SEEK_CUR)`; moving before the start fails and leaves the position. -/
def lseekCur (f : File) (off : Int) : File :=
  if 0 ≤ f.pos + off then { f with pos := (f.pos + off).toNat } else f

def pread (f : File) (n off : Nat) : Bytes := window f.bytes off n

def pwrite (f : File) (bs : Bytes) (off : Nat) : Option File :=
  if h : (splice 0 f.bytes off bs).length ≤ OFF_MAX then
    some ⟨splice 0 f.bytes off bs, f.pos, h⟩
  else none

def write (f : File) (bs : Bytes) : Option File :=
  (f.pwrite bs f.pos).map (fun g => g.lseekSet (f.pos + bs.length))

theorem pwrite_eq_some {f g : File} {bs : Bytes} {off : Nat} :
    f.pwrite bs off = some g ↔ g.bytes = splice 0 f.bytes off bs ∧ g.pos = f.pos := by
  rw [pwrite]
  split
  · rename_i h
    obtain ⟨bytes, pos, _⟩ := g
    simp only [Option.some.injEq, File.mk.injEq]
    exact ⟨fun h => ⟨h.1.symm, h.2.symm⟩, fun h => ⟨h.1.symm, h.2.symm⟩⟩
  · rename_i h
    simp only [reduceCtorEq, false_iff, not_and]
    intro hb
    exact absurd (hb ▸ g.size_le) h

theorem write_eq_some {f g : File} {bs : Bytes} :
    f.write bs = some g ↔ g.bytes = splice 0 f.bytes f.pos bs ∧ g.pos = f.pos + bs.length := by
  rw [write, Option.map_eq_some_iff]
  constructor
  · rintro ⟨g', hg, rfl⟩
    exact ⟨(pwrite_eq_some.mp hg).1, rfl⟩
  · rintro ⟨hb, hp⟩
    refine ⟨⟨g.bytes, f.pos, g.size_le⟩, pwrite_eq_some.mpr ⟨hb, rfl⟩, ?_⟩
    rw [lseekSet, ← hp]

end File

/-- `read_byte`. At the end of the file the byte is indeterminate: `indet`. -/
def readByte (indet : UInt8) (f : File) : UInt8 × File :=
  let (got, f) := f.read 1
  (got.headD indet, f)

def writeByte (f : File) (byte : UInt8) : Option File := f.write [byte]

/-- `read_n`: the scalar is zeroed first, so a short read leaves zero bytes. -/
def readN (T : Type) [Scalar T] [Machine] (f : File) (endian : UInt8) : T × File :=
  let (got, f) := f.read (Scalar.width T)
  let bytes := got ++ List.replicate (Scalar.width T - got.length) 0
  let bytes := if machineEndian ≠ endian then bytes.reverse else bytes
  (ofImage Machine.order bytes, f)

/-- `curr_offset` returns an `int`, here sign-extended to the `size_t` it is compared as. -/
def currOffset (f : File) : Nat :=
  let n := f.pos % 2 ^ 32
  if n < 2 ^ 31 then n else 2 ^ 64 - 2 ^ 32 + n

/-- `handle_endian`: the byte order of the file, which then becomes the machine's. -/
def handleEndian [Machine] (indet : UInt8) (f : File) : Option (UInt8 × File) :=
  let (endian, f) := readByte indet f
  (writeByte (f.lseekCur (-1)) machineEndian).map (fun f => (endian, f))

theorem currOffset_eq {f : File} (h : f.pos < 2 ^ 31) : currOffset f = f.pos := by
  rw [currOffset, Nat.mod_eq_of_lt (by omega), if_pos h]

/-- Cut to 32 bits again, the sign is gone. -/
theorem ofNat_currOffset (f : File) : UInt32.ofNat (currOffset f) = UInt32.ofNat f.pos := by
  rw [← UInt32.toNat_inj, UInt32.toNat_ofNat', UInt32.toNat_ofNat', currOffset]
  split <;> omega

end Ambry
