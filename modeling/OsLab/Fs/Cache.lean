/-
The block cache (`fs/cache.c`).

The state `Bcache` has the globals of the file: the heap of `Block`s by
address, the list `head` read from `head.next` to `head.prev`, the in-memory
log header and the `log` struct, and the device.  `trace` records the device
writes in order; it is what a crash in the middle of an operation needs.

Each critical section of the source is one function (`acquireSection`,
`fillSection`, `releaseSection`, `syncSection`, …).  The functions of the
interface are their compositions: `cacheAcquire`, `cacheRelease`, `cacheSync`,
`commit`, `recoverFromLog`, `initBcache`, `cacheBeginOp`, `cacheEndOp`.  In them
a sleep lock that is not free is the fault `blocked`; the model with several
threads interleaves the sections themselves.
-/
import OsLab.Lib.Hoare
import OsLab.Lib.KeyedList
import OsLab.Common.Sem
import OsLab.Fs.Defines
import Mathlib.Logic.Function.Basic

namespace OsLab

/-- How a call can fail to return. -/
inductive Fault
  /-- `PANIC()` or a failed `ASSERT` -/
  | panic
  /-- an access past `LogHeader.block_no` -/
  | outOfBounds
  /-- the caller goes to sleep -/
  | blocked
  deriving DecidableEq, Repr

/-- `Block`: a block in block cache. -/
structure Block where
  blockNo : ℕ
  acquired : Bool
  pinned : Bool
  lock : Semaphore
  valid : Bool
  data : BlockData

/-- `init_block` -/
def initBlock : Block where
  blockNo := 0
  acquired := false
  pinned := false
  lock := .initSleeplock
  valid := false
  data := .fill 0

/-- The struct `log` of `cache.c`, less its unused semaphore `busy`. -/
structure Log where
  committing : Bool
  outstanding : ℤ
  deriving DecidableEq, Repr

/-- The state of the block cache and of its device. -/
structure Bcache where
  heap : ℕ → Block
  /-- the next address that `kalloc` returns -/
  brk : ℕ
  /-- the blocks given back by `kfree` -/
  freed : List ℕ
  /-- the list of cached blocks, from `head.next` to `head.prev` -/
  head : List ℕ
  header : LogHeader
  log : Log
  device : ℕ → BlockData
  /-- the device writes so far, oldest first -/
  trace : List (ℕ × BlockData)

namespace Bcache

/-- An assignment to fields of the block at address `a`. -/
def setBlock (s : Bcache) (a : ℕ) (f : Block → Block) : Bcache :=
  { s with heap := Function.update s.heap a (f (s.heap a)) }

/-- `device->write(n, d)` -/
def writeDevice (s : Bcache) (n : ℕ) (d : BlockData) : Bcache :=
  { s with device := Function.update s.device n d, trace := s.trace ++ [(n, d)] }

/-- `device_read(block)` -/
def deviceRead (s : Bcache) (a : ℕ) : Bcache :=
  s.setBlock a fun b => { b with data := s.device b.blockNo }

/-- `device_write(block)` -/
def deviceWrite (s : Bcache) (a : ℕ) : Bcache :=
  s.writeDevice (s.heap a).blockNo (s.heap a).data

/-- The first loop of `cache_acquire`: the first cached block with number `n`. -/
def findBlock (s : Bcache) (n : ℕ) : Option ℕ :=
  findKey (fun a => (s.heap a).blockNo) n s.head

/-- The second loop of `cache_acquire`: from the tail, the first buffer that is
neither acquired nor pinned. -/
def findVictim (s : Bcache) : Option ℕ :=
  s.head.reverse.find? fun a => !(s.heap a).acquired && !(s.heap a).pinned

/-- The three ways through `cache_acquire`. -/
inductive Path
  | hit
  | reuse
  | fresh
  deriving DecidableEq, Repr

/-- The first critical section of `cache_acquire`: the way it takes, the address
it returns in the end, and the state when `lock` is released. -/
def acquireSection (s : Bcache) (n : ℕ) : Path × ℕ × Bcache :=
  match s.findBlock n with
  | some a => (.hit, a, s.setBlock a fun b => { b with acquired := true })
  | none =>
    match s.findVictim with
    | some a =>
      (.reuse, a, s.setBlock a fun b =>
        { b with blockNo := n, acquired := true, valid := false })
    | none =>
      (.fresh, s.brk,
        { s with
          brk := s.brk + 1
          heap := Function.update s.heap s.brk
            { initBlock with blockNo := n, acquired := true, valid := false } })

/-- `device_read(block); block->valid = true` -/
def load (s : Bcache) (a : ℕ) : Bcache :=
  (s.deviceRead a).setBlock a fun b => { b with valid := true }

/-- What `cache_acquire` does once it has the sleep lock.  A fresh block is put
on the list, before the head, only now. -/
def fillSection (path : Path) (a : ℕ) (s : Bcache) : Bcache :=
  match path with
  | .hit => if !(s.heap a).valid && !(s.heap a).pinned then s.load a else s
  | .reuse => s.load a
  | .fresh => { s.load a with head := s.head ++ [a] }

/-- The critical section of `cache_release`, entered after the sleep lock is
released: the block moves to the front of the list, or is freed. -/
def releaseSection (a : ℕ) (s : Bcache) : Bcache :=
  let rest := s.head.erase a
  let s := s.setBlock a fun b => { b with acquired := false }
  if !(s.heap a).pinned && evictionThreshold < rest.length then
    { s with head := rest, freed := a :: s.freed }
  else
    { s with head := a :: rest }

end Bcache

/-! ### The log header and the running operations -/

/-- The logged branch of `cache_sync` on the header: `n` is absorbed or takes the
next entry.  Returns the new `ctx->rm`. -/
def LogHeader.absorb (h : LogHeader) (rm n : ℕ) : Except Fault (ℕ × LogHeader) :=
  let i := h.logged.idxOf n
  if i < logMaxSize then
    if i = h.numBlocks then
      if rm = 0 then .error .panic
      else .ok (rm - 1, { h.setEntry i n with numBlocks := h.numBlocks + 1 })
    else .ok (rm, h.setEntry i n)
  else .error .outOfBounds

/-- One pass of the loop of `cache_begin_op`: `none` when the caller has to
sleep on `log.lock`, else the operation is running with `ctx->rm` set to
`OP_MAX_NUM_BLOCKS`. -/
def Log.beginSection (log : Log) (header : LogHeader) : Option Log :=
  if log.committing then none
  else if (logMaxSize : ℤ) < header.numBlocks + (log.outstanding + 1) * opMaxNumBlocks then none
  else some { log with outstanding := log.outstanding + 1 }

/-- The first critical section of `cache_end_op`; the flag is `do_commit`. -/
def Log.endSection (log : Log) : Except Fault (Bool × Log) :=
  if log.committing then .error .panic
  else if log.outstanding - 1 = 0 then .ok (true, ⟨true, log.outstanding - 1⟩)
  else .ok (false, { log with outstanding := log.outstanding - 1 })

/-! ### The functions of the block cache -/

/-- Programs over the state of the block cache. -/
abbrev CacheM : Type → Type := StateT Bcache (Except Fault)

open Bcache

/-- `acquire_sleeplock(0, &block->lock)` by a caller that must not sleep. -/
def acquireSleeplock (a : ℕ) : CacheM Unit := do
  let b := (← get).heap a
  if 0 ≤ b.lock.val - 1 then
    modify fun s => s.setBlock a fun b => { b with lock := (b.lock.wait 0).2 }
  else throw .blocked

/-- `release_sleeplock(0, &block->lock)` -/
def releaseSleeplock (a : ℕ) : CacheM Unit :=
  modify fun s => s.setBlock a fun b => { b with lock := b.lock.post }

/-- `cache_acquire` -/
def cacheAcquire (n : ℕ) : CacheM ℕ := do
  let r := acquireSection (← get) n
  set r.2.2
  acquireSleeplock r.2.1
  modify (fillSection r.1 r.2.1)
  return r.2.1

/-- `cache_release` -/
def cacheRelease (a : ℕ) : CacheM Unit := do
  releaseSleeplock a
  modify (releaseSection a)

/-- `cache_sync`; `ctx` is `ctx->rm`, or `none` for the null context.  Returns
the new `ctx->rm`. -/
def cacheSync (ctx : Option ℕ) (a : ℕ) : CacheM (Option ℕ) := do
  match ctx with
  | none =>
    modify fun s => s.deviceWrite a
    return none
  | some rm =>
    modify fun s => s.setBlock a fun b => { b with pinned := true }
    let s ← get
    match s.header.absorb rm (s.heap a).blockNo with
    | .error e => throw e
    | .ok (rm, header) =>
      set { s with header := header }
      return some rm

/-- `header.block_no[tail]` -/
def headerBlockNo (tail : ℕ) : CacheM ℕ := do
  if tail < logMaxSize then return (← get).header.entry tail
  else throw .outOfBounds

/-- `write_header` -/
def writeHeader (sb : SuperBlock) : CacheM Unit :=
  modify fun s => s.writeDevice sb.logStart s.header.toBlock

/-- `memmove(to->data, from->data, BLOCK_SIZE); device_write(to)` -/
def copyAndWrite (dst src : ℕ) : CacheM Unit :=
  modify fun s => (s.setBlock dst fun b => { b with data := (s.heap src).data }).deviceWrite dst

/-- One iteration of the first loop of `commit`: a logged block goes to the log. -/
def commitToLog (sb : SuperBlock) (tail : ℕ) : CacheM Unit := do
  let dst ← cacheAcquire (sb.logBlock tail)
  let src ← cacheAcquire (← headerBlockNo tail)
  copyAndWrite dst src
  cacheRelease src
  cacheRelease dst

/-- One iteration of the second loop of `commit`: a logged block goes home. -/
def commitToHome (sb : SuperBlock) (tail : ℕ) : CacheM Unit := do
  let src ← cacheAcquire (sb.logBlock tail)
  let dst ← cacheAcquire (← headerBlockNo tail)
  copyAndWrite dst src
  modify fun s => s.setBlock dst fun b => { b with pinned := false }
  cacheRelease src
  cacheRelease dst

/-- `header.num_blocks = 0; write_header()` -/
def clearHeader (sb : SuperBlock) : CacheM Unit := do
  modify fun s => { s with header := { s.header with numBlocks := 0 } }
  writeHeader sb

/-- `commit` -/
def commit (sb : SuperBlock) : CacheM Unit := do
  let n := (← get).header.numBlocks
  forUpTo n (commitToLog sb)
  writeHeader sb
  forUpTo n (commitToHome sb)
  clearHeader sb

/-- One iteration of the loop of `recover_from_log`. -/
def recoverBlock (sb : SuperBlock) (tail : ℕ) : CacheM Unit := do
  let src ← cacheAcquire (sb.logBlock tail)
  let dst ← cacheAcquire (← headerBlockNo tail)
  copyAndWrite dst src
  cacheRelease src
  cacheRelease dst

/-- `recover_from_log` -/
def recoverFromLog (sb : SuperBlock) : CacheM Unit := do
  let n := (← get).header.numBlocks
  forUpTo n (recoverBlock sb)
  clearHeader sb

/-- The state of `init_bcache` after `read_header`: `EVICTION_THRESHOLD` fresh
blocks, each inserted at the front. -/
def Bcache.boot (sb : SuperBlock) (device : ℕ → BlockData) : Bcache where
  heap := fun _ => initBlock
  brk := evictionThreshold
  freed := []
  head := (List.range evictionThreshold).reverse
  header := .ofBlock (device sb.logStart)
  log := ⟨false, 0⟩
  device := device
  trace := []

/-- `init_bcache` -/
def initBcache (sb : SuperBlock) (device : ℕ → BlockData) : Except Fault Bcache :=
  (·.2) <$> (recoverFromLog sb).run (.boot sb device)

/-- `cache_begin_op` by a caller that must not sleep; returns `ctx->rm`. -/
def cacheBeginOp : CacheM ℕ := do
  let s ← get
  match s.log.beginSection s.header with
  | none => throw .blocked
  | some log =>
    set { s with log := log }
    return opMaxNumBlocks

/-- The second critical section of `cache_end_op`. -/
def commitSection (sb : SuperBlock) : CacheM Unit := do
  commit sb
  modify fun s => { s with log := { s.log with committing := false } }

/-- `cache_end_op` -/
def cacheEndOp (sb : SuperBlock) : CacheM Unit := do
  let s ← get
  match s.log.endSection with
  | .error e => throw e
  | .ok (doCommit, log) =>
    set { s with log := log }
    if doCommit then commitSection sb

end OsLab
