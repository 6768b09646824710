import Ambry.Lib.Cache

/-!
# `lib/rw.cpp`

Where a value goes: a free extent longer than the value, else the end of the
data file; an update of a longer value goes over the old one.
-/

namespace Ambry.RW

variable [Machine]

/-- The first entry longer than `size`, in the order of the multimap. -/
def firstLonger (freeList : FreeList) (size : Nat) : Option (UInt32 × FreeEntry) :=
  freeList.entries.find? (fun entry => size < entry.1.toNat)

def findFree (ctx : DBContext) (size : Nat) : Option (UInt32 × FreeEntry) :=
  firstLonger ctx.freeList size

def free (ctx : DBContext) (im : IoManager) (offset : UInt64) (size : UInt32) :
    Option (DBContext × IoManager) := do
  let (off, im) ← im.updateFreelist offset size
  return ({ ctx with freeList := ctx.freeList.emplace size ⟨offset, UInt32.ofNat off⟩ }, im)

def manageFree (ctx : DBContext) (im : IoManager) (entry : UInt32 × FreeEntry) (dataSize : Nat) :
    Option (UInt64 × DBContext × IoManager) := do
  let (size, free) := entry
  let ctx := { ctx with freeList := ctx.freeList.erase size }
  let im ← im.eraseFreelist free.freeListOffset.toNat
  let diff := size.toNat - dataSize
  if diff = 0 then some (free.offset, ctx, im)
  else do
    let newOffset := free.offset + UInt64.ofNat dataSize
    let (off, im) ← im.updateFreelist newOffset (UInt32.ofNat diff)
    let entry : FreeEntry := ⟨newOffset, UInt32.ofNat off⟩
    return (free.offset, { ctx with freeList := ctx.freeList.emplace (UInt32.ofNat diff) entry }, im)

def write (ctx : DBContext) (im : IoManager) (slice : Bytes) :
    Option (UInt64 × DBContext × IoManager) := do
  let size := slice.length
  let (offset, ctx, im) ← (match findFree ctx size with
    | some entry => manageFree ctx im entry size
    | none => some (npos, ctx, im))
  let ctx := if ctx.options.enableCache then Cache.write ctx slice offset (UInt32.ofNat size) else ctx
  let (offset, im) ← im.writeDat slice offset (UInt32.ofNat size)
  return (offset, ctx, im)

def update (ctx : DBContext) (im : IoManager) (oldOffset : UInt64) (oldSize : UInt32)
    (slice : Bytes) : Option (UInt64 × DBContext × IoManager) := do
  let size := slice.length
  let (offset, ctx, im) ← (if oldSize.toNat < size then some (oldOffset, ctx, im)
    else match findFree ctx size with
      | some entry => manageFree ctx im entry size
      | none => some (npos, ctx, im))
  let (offset, im) ← im.writeDat slice offset (UInt32.ofNat size)
  let ctx := if ctx.options.enableCache then Cache.writeAt ctx offset.toNat slice else ctx
  return (offset, ctx, im)

end Ambry.RW
