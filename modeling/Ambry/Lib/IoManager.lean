import Ambry.Lib.File

/-!
# `lib/io_manager.cpp`

The three files of a database. The index file is a byte-order byte followed by
records of a key length, a validity byte, the key, an offset and a length; the
free-list file is a byte-order byte followed by records of an offset and a
length. The vectored writes of the source are one write of the joined buffers.
-/

namespace Ambry

open Foundation

structure IoManager where
  dat : File
  idx : File
  free : File

namespace IoManager

variable [Machine]

/-- `open_files`: the descriptors start at the beginning of the files. -/
def openFiles (im : IoManager) : IoManager where
  dat := im.dat.lseekSet 0
  idx := im.idx.lseekSet 0
  free := im.free.lseekSet 0

def emplaceIndex (index : Index) (key : Bytes) (data : IndexData) : Index :=
  if key ∈ index then index else index.insert key data

/-- The loop of `load_index`. `fuel` bounds the number of records. -/
def loadIndexLoop (indet : UInt8) (fsize : Nat) (endian : UInt8) :
    Nat → Index → File → Option (Index × File)
  | 0, _, _ => none
  | fuel + 1, index, f =>
    if currOffset f < fsize then
      let (keyLen, f) := readN UInt16 f endian
      let idxOffset := UInt32.ofNat (currOffset f)
      let (isValid, f) := readByte indet f
      if isValid = 0 then
        loadIndexLoop indet fsize endian fuel index (f.lseekCur (keyLen.toNat + 8 + 4))
      else
        let (got, f) := f.read keyLen.toNat
        let key := got ++ List.replicate (keyLen.toNat - got.length) 0
        let (offset, f) := readN UInt64 f endian
        let (length, f) := readN UInt32 f endian
        loadIndexLoop indet fsize endian fuel
          (emplaceIndex index key { offset, length, idxOffset }) f
    else some (index, f)

def loadIndex (indet : UInt8) (ctx : DBContext) (im : IoManager) :
    Option (Result × DBContext × IoManager) := do
  let fsize := im.idx.size
  let (endian, f) ← handleEndian indet im.idx
  let (index, f) ← loadIndexLoop indet fsize endian (fsize + 1) ctx.index f
  return (.success, { ctx with index }, { im with idx := f })

def resize (data : Bytes) (n : Nat) : Bytes := data.take n ++ List.replicate (n - data.length) 0

def loadDat (ctx : DBContext) (im : IoManager) : Result × DBContext × IoManager :=
  let fsize := im.dat.size
  let (got, f) := im.dat.read fsize
  (.success, { ctx with data := splice 0 (resize ctx.data fsize) 0 got }, { im with dat := f })

def loadFreeLoop (fsize : Nat) (endian : UInt8) : Nat → FreeList → File → Option (FreeList × File)
  | 0, _, _ => none
  | fuel + 1, freeList, f =>
    if currOffset f < fsize then
      let freeListOffset := UInt32.ofNat f.pos
      let (offset, f) := readN UInt64 f endian
      let (length, f) := readN UInt32 f endian
      if offset = 0 ∧ length = 0 then loadFreeLoop fsize endian fuel freeList f
      else loadFreeLoop fsize endian fuel (freeList.emplace length { offset, freeListOffset }) f
    else some (freeList, f)

def loadFree (indet : UInt8) (ctx : DBContext) (im : IoManager) :
    Option (Result × DBContext × IoManager) := do
  let fsize := im.free.size
  let (endian, f) ← handleEndian indet im.free
  let (freeList, f) ← loadFreeLoop fsize endian (fsize + 1) ctx.freeList f
  return (.success, { ctx with freeList }, { im with free := f })

def loadStructures (indet : UInt8) (ctx : DBContext) (im : IoManager) :
    Option (Result × DBContext × IoManager) := do
  let (_, ctx, im) ← loadIndex indet ctx im.openFiles
  let (_, ctx, im) := loadDat ctx im
  loadFree indet ctx im

/-- The bytes `insert` writes for an entry, with the given validity byte. -/
def record (valid : UInt8) (key : Bytes) (offset : UInt64) (length : UInt32) : Bytes :=
  image Machine.order (UInt16.ofNat key.length) ++ [valid] ++ key ++
    image Machine.order offset ++ image Machine.order length

/-- `insert` also stores the position of the validity byte in the entry. -/
def insert (im : IoManager) (key : Bytes) (data : IndexData) : Option (IndexData × IoManager) := do
  let f := im.idx.lseekEnd
  let data := { data with idxOffset := UInt32.ofNat (currOffset f + 2) }
  let f ← f.write (record 1 key data.offset data.length)
  return (data, { im with idx := f })

def erase (im : IoManager) (data : IndexData) : Option IoManager := do
  let f ← writeByte (im.idx.lseekSet data.idxOffset.toNat) 0
  return { im with idx := f }

def update (im : IoManager) (key : Bytes) (data : IndexData) : Option IoManager := do
  let f ← im.idx.pwrite (image Machine.order data.offset ++ image Machine.order data.length)
    (data.idxOffset.toNat + key.length + 1)
  return { im with idx := f }

def freeRecord (offset : UInt64) (length : UInt32) : Bytes :=
  image Machine.order offset ++ image Machine.order length

omit [Machine] in
def eraseFreelist (im : IoManager) (offset : Nat) : Option IoManager := do
  let f ← im.free.pwrite (List.replicate 12 0) offset
  return { im with free := f }

def updateFreelist (im : IoManager) (offset : UInt64) (size : UInt32) :
    Option (Nat × IoManager) := do
  let f := im.free.lseekEnd
  let n := f.pos
  let f ← f.write (freeRecord offset size)
  return (n, { im with free := f })

omit [Machine] in
def writeDat (im : IoManager) (bytes : Bytes) (offset : UInt64) (size : UInt32) :
    Option (UInt64 × IoManager) := do
  let (offset, f) := if offset = npos then (UInt64.ofNat im.dat.size, im.dat.lseekEnd)
    else (offset, im.dat)
  let f ← f.pwrite (bytes.take size.toNat) offset.toNat
  return (offset, { im with dat := f })

omit [Machine] in
/-- The buffer is zeroed first, so what lies past the end of the file reads as zero bytes. -/
def readDat (im : IoManager) (offset : UInt64) (size : UInt32) : Bytes :=
  let got := im.dat.pread size.toNat offset.toNat
  got ++ List.replicate (size.toNat - got.length) 0

end IoManager

end Ambry
