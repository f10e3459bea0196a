/-
The inode layer (`fs/inode.c`) and the allocation of blocks (`cache_alloc` and
`cache_free` of `fs/cache.c`).

The inode layer works on a block cache that it is given as a record of
functions, `const BlockCache *cache`.  Here the functions are programs of any
monad `m` with the fault `panic`, so that one text of the inode layer runs on
every model of the block cache.  A `Block *` is a number; `data` and `store` read
and assign `block->data`.

An `Inode` is passed in and returned with its new entry.  The arithmetic of
`usize` is that of ℕ modulo `2 ^ 64`.
-/
import OsLab.Fs.Cache
import OsLab.Fs.OnDisk

namespace OsLab

/-- The functions of the block cache on blocks; `ctx` is the operation, or `none`
for the null context. -/
structure BlockOps (m : Type → Type) where
  acquire (blockNo : ℕ) : m ℕ
  data (block : ℕ) : m BlockData
  store (block : ℕ) (d : BlockData) : m Unit
  sync (ctx : Option ℕ) (block : ℕ) : m Unit
  release (block : ℕ) : m Unit

/-- `BlockCache` -/
structure BlockCache (m : Type → Type) extends BlockOps m where
  alloc (ctx : Option ℕ) : m ℕ
  free (ctx : Option ℕ) (blockNo : ℕ) : m Unit

/-- `Inode`; `rc` is `rc.count`. -/
structure Inode where
  rc : ℕ
  inodeNo : ℕ
  valid : Bool
  entry : InodeEntry

/-- One past the largest `usize`. -/
abbrev usizeSize : ℕ := 2 ^ 64

variable {m : Type → Type} [Monad m] [MonadExceptOf Fault m] (sb : SuperBlock)

/-! ### Allocation of blocks -/

/-- The first clear bit of a bitmap block whose first bit is that of block
`base`. -/
def firstFree (d : BlockData) (base : ℕ) : Option ℕ :=
  (List.range bitPerBlock).find? fun i => decide (i + base < sb.numBlocks) && !d.bit i

theorem firstFree_eq_some {sb : SuperBlock} {d : BlockData} {base i : ℕ}
    (h : firstFree sb d base = some i) :
    i < bitPerBlock ∧ i + base < sb.numBlocks ∧ d.bit i = false := by
  have hmem := List.mem_of_find?_eq_some h
  have hp := List.find?_some h
  simp only [Bool.and_eq_true, decide_eq_true_eq, Bool.not_eq_true'] at hp
  exact ⟨List.mem_range.mp hmem, hp⟩

/-- The bits before the first clear one are set. -/
theorem firstFree_first {sb : SuperBlock} {d : BlockData} {base i j : ℕ}
    (h : firstFree sb d base = some i) (hj : j < i) (hlt : j + base < sb.numBlocks) :
    d.bit j = true := by
  have hp := (List.find?_range_eq_some.mp h).2.2 j hj
  simpa [hlt] using hp

theorem firstFree_eq_none {sb : SuperBlock} {d : BlockData} {base i : ℕ}
    (h : firstFree sb d base = none) (hi : i < bitPerBlock)
    (hlt : i + base < sb.numBlocks) : d.bit i = true := by
  have hp := List.find?_eq_none.mp h i (List.mem_range.mpr hi)
  simpa [hlt] using hp

-- the search goes over all bits of a block and must not be unfolded
attribute [irreducible] firstFree

/-- The loop of `cache_alloc` over the bitmap blocks `bitmap_start + k` for `k` in
the list. -/
def cacheAllocFrom (ops : BlockOps m) (ctx : Option ℕ) : List ℕ → m ℕ
  | [] => throw .panic
  | k :: ks => do
    let b ← ops.acquire (sb.bitmapStart + k)
    let d ← ops.data b
    match firstFree sb d (k * bitPerBlock) with
    | some i =>
      ops.store b (d.setBit i)
      ops.sync ctx b
      ops.release b
      let newB ← ops.acquire (k * bitPerBlock + i)
      ops.store newB (.fill 0)
      ops.sync ctx newB
      ops.release newB
      return k * bitPerBlock + i
    | none =>
      ops.release b
      cacheAllocFrom ops ctx ks

/-- `cache_alloc` -/
def cacheAlloc (ops : BlockOps m) (ctx : Option ℕ) : m ℕ :=
  cacheAllocFrom sb ops ctx (List.range (1 + sb.numBlocks / bitPerBlock))

/-- `cache_free` -/
def cacheFree (ops : BlockOps m) (ctx : Option ℕ) (blockNo : ℕ) : m Unit := do
  let b ← ops.acquire (sb.bitmapStart + blockNo / bitPerBlock)
  let d ← ops.data b
  ops.store b (d.clearBit (blockNo % bitPerBlock))
  ops.sync ctx b
  ops.release b

/-- The block cache whose allocator is the bitmap. -/
def BlockOps.withBitmap (ops : BlockOps m) : BlockCache m :=
  { ops with alloc := cacheAlloc sb ops, free := cacheFree sb ops }

/-! ### Inodes -/

variable (cache : BlockCache m)

/-- The block and the position in it of entry `inodeNo`. -/
def toBlockNo (inodeNo : ℕ) : ℕ := sb.inodeStart + inodeNo / inodePerBlock

/-- The loop of `inode_alloc` over the inode numbers of the list. -/
def inodeAllocFrom (ctx : Option ℕ) (type : UInt16) : List ℕ → m ℕ
  | [] => throw .panic
  | i :: is => do
    let b ← cache.acquire (toBlockNo sb i)
    let d ← cache.data b
    if (d.inodeEntry (i % inodePerBlock)).type = inodeInvalid then
      cache.store b (d.setInodeEntry (i % inodePerBlock) { InodeEntry.zero with type := type })
      cache.sync ctx b
      cache.release b
      return i
    else
      cache.release b
      inodeAllocFrom ctx type is

/-- `inode_alloc` -/
def inodeAlloc (ctx : Option ℕ) (type : UInt16) : m ℕ :=
  if type = inodeInvalid then throw .panic
  else inodeAllocFrom sb cache ctx type (List.range' 1 (sb.numInodes - 1))

/-- `inode_lock`, less the sleep lock: the entry is loaded if it has not been. -/
def inodeLock (inode : Inode) : m Inode :=
  if inode.rc = 0 then throw .panic
  else if inode.valid then return inode
  else do
    let b ← cache.acquire (toBlockNo sb inode.inodeNo)
    let d ← cache.data b
    cache.release b
    return { inode with
      valid := true, entry := d.inodeEntry (inode.inodeNo % inodePerBlock) }

/-- `inode_sync` -/
def inodeSync (ctx : Option ℕ) (inode : Inode) (doWrite : Bool) : m Inode := do
  let b ← cache.acquire (toBlockNo sb inode.inodeNo)
  let d ← cache.data b
  let inode ←
    if doWrite && inode.valid then do
      cache.store b (d.setInodeEntry (inode.inodeNo % inodePerBlock) inode.entry)
      cache.sync ctx b
      pure inode
    else if !inode.valid && !doWrite then
      pure { inode with
        valid := true, entry := d.inodeEntry (inode.inodeNo % inodePerBlock) }
    else if inode.valid && !doWrite then pure inode
    else throw .panic
  cache.release b
  return inode

/-- One pass of the first loop of `inode_clear`. -/
def clearDirect (ctx : Option ℕ) (i : ℕ) (entry : InodeEntry) : m InodeEntry :=
  if entry.addr i ≠ 0 then do
    cache.free ctx (entry.addr i).toNat
    return entry.setAddr i 0
  else return entry

/-- One pass of the loop of `inode_clear` over the indirect block `b`. -/
def clearIndirect (ctx : Option ℕ) (b i : ℕ) : m Unit := do
  let d ← cache.data b
  if d.addr i ≠ 0 then
    cache.free ctx (d.addr i).toNat
    cache.store b (d.setAddr i 0)

/-- The loop `for (i = 0; i < n; i++) x = body(i, x)`. -/
def forUpToWith {α : Type} : ℕ → α → (ℕ → α → m α) → m α
  | 0, x, _ => pure x
  | n + 1, x, body => do
    let x ← forUpToWith n x body
    body n x

/-- `inode_clear` -/
def inodeClear (ctx : Option ℕ) (inode : Inode) : m Inode := do
  let entry ← forUpToWith inodeNumDirect inode.entry (clearDirect cache ctx)
  let entry ←
    if entry.indirect ≠ 0 then do
      let b ← cache.acquire entry.indirect.toNat
      forUpTo inodeNumIndirect (clearIndirect cache ctx b)
      cache.sync ctx b
      cache.release b
      cache.free ctx entry.indirect.toNat
      pure { entry with indirect := 0 }
    else pure entry
  inodeSync sb cache ctx { inode with valid := true, entry := { entry with numBytes := 0 } } true

/-- `inode_put`; `none` when the inode is freed.  Its `int r` is `rc.count` as it is, for counts
below 2^31. -/
def inodePut (ctx : Option ℕ) (inode : Inode) : m (Option Inode) := do
  if inode.entry.numLinks = 0 ∧ inode.rc = 1 then
    let inode ← inodeClear sb cache ctx inode
    let b ← cache.acquire (toBlockNo sb inode.inodeNo)
    let d ← cache.data b
    let k := inode.inodeNo % inodePerBlock
    cache.store b (d.setInodeEntry k { d.inodeEntry k with type := inodeInvalid })
    cache.sync ctx b
    cache.release b
    return none
  else return some { inode with rc := inode.rc - 1 }

/-! ### The content of files -/

/-- `inode_map` from `cache->acquire(addr)` on, where `addr` is the indirect block
and `blockNumber` the index in it. -/
def mapIndirect (ctx : Option ℕ) (inode : Inode) (blockNumber : ℕ) : m (ℕ × Inode) := do
  let b ← cache.acquire inode.entry.indirect.toNat
  let d ← cache.data b
  let addr := d.addr blockNumber
  if addr = 0 then
    if ctx = none then
      cache.release b
      return (0, inode)
    else
      let n ← cache.alloc ctx
      cache.store b (d.setAddr blockNumber (.ofNat n))
      cache.sync ctx b
      cache.release b
      return ((UInt32.ofNat n).toNat, inode)
  else
    -- also when `ctx` is null
    cache.sync ctx b
    cache.release b
    return (addr.toNat, inode)

/-- `inode_map`: the block of byte `offset`, and the inode.  The flag `modified` is
not used by its callers. -/
def inodeMap (ctx : Option ℕ) (inode : Inode) (offset : ℕ) : m (ℕ × Inode) :=
  let blockNumber := offset / blockSize % 2 ^ 32
  if blockNumber < inodeNumDirect then
    let addr := inode.entry.addr blockNumber
    if addr = 0 then
      if ctx = none then return (0, inode)
      else do
        let n ← cache.alloc ctx
        let entry := inode.entry.setAddr blockNumber (.ofNat n)
        return ((UInt32.ofNat n).toNat, { inode with entry := entry })
    else return (addr.toNat, inode)
  else
    let blockNumber := blockNumber - inodeNumDirect
    if blockNumber < inodeNumIndirect then
      if inode.entry.indirect = 0 then
        if ctx = none then return (0, inode)
        else do
          let n ← cache.alloc ctx
          mapIndirect cache ctx
            { inode with entry := { inode.entry with indirect := .ofNat n } } blockNumber
      else mapIndirect cache ctx inode blockNumber
    else return (0, inode)

/-- The number `m` of bytes that one pass of the loops of `inode_read` and
`inode_write` moves. -/
def chunk (offset remaining : ℕ) : ℕ := min remaining (blockSize - offset % blockSize)

/-- The loop `for (total = 0; total < count; total += m, offset += m)` from `total`
on.  Every pass moves a byte, so `count` passes are enough. -/
def forChunks {α : Type} (count : ℕ) (body : ℕ → ℕ → α → m α) : ℕ → ℕ → ℕ → α → m α
  | 0, _, _, x => pure x
  | fuel + 1, offset, total, x =>
    if total < count then do
      let x ← body offset total x
      let step := chunk offset (count - total)
      forChunks count body fuel (offset + step) (total + step) x
    else pure x

/-- One pass of the loop of `inode_read`: the bytes of `dest` grow. -/
def readChunk (inode : Inode) (count offset total : ℕ) (dest : List UInt8) : m (List UInt8) := do
  let r ← inodeMap cache none inode offset
  let b ← cache.acquire r.1
  let d ← cache.data b
  cache.release b
  let step := chunk offset (count - total)
  return dest ++ (List.range step).map fun j => d.byte (offset % blockSize + j)

/-- `inode_read`: the bytes copied to `dest`, and the result. -/
def inodeRead (inode : Inode) (offset count : ℕ) : m (List UInt8 × ℕ) := do
  let numBytes := inode.entry.numBytes.toNat
  let count :=
    if numBytes < (count + offset) % usizeSize then (numBytes + usizeSize - offset) % usizeSize
    else count
  let last := (offset + count) % usizeSize
  if offset ≤ numBytes ∧ last ≤ numBytes ∧ offset ≤ last then
    let dest ← forChunks count (readChunk cache inode count) count offset 0 []
    return (dest, count)
  else throw .panic

/-- One pass of the loop of `inode_write`. -/
def writeChunk (ctx : Option ℕ) (src : ℕ → UInt8) (count offset total : ℕ) (inode : Inode) :
    m Inode := do
  let r ← inodeMap cache ctx inode offset
  let b ← cache.acquire r.1
  let d ← cache.data b
  let step := chunk offset (count - total)
  cache.store b (d.patch (offset % blockSize) step fun j => src (total + j))
  cache.sync ctx b
  cache.release b
  return r.2

/-- `inode_write`: the result, and the inode. -/
def inodeWrite (ctx : Option ℕ) (inode : Inode) (src : ℕ → UInt8) (offset count : ℕ) :
    m (ℕ × Inode) := do
  let last := (offset + count) % usizeSize
  if offset ≤ inode.entry.numBytes.toNat ∧ last ≤ inodeMaxBytes ∧ offset ≤ last then
    let inode ← forChunks count (writeChunk cache ctx src count) count offset 0 inode
    if 0 < count ∧ inode.entry.numBytes.toNat < offset + count then
      let inode ← inodeSync sb cache ctx
        { inode with entry := { inode.entry with numBytes := .ofNat (offset + count) } } true
      return (count, inode)
    else return (count, inode)
  else throw .panic

end OsLab
