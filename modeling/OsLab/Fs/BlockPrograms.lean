/-
The inode layer as programs that call the block cache.

`progCache` is a block cache whose functions only record that they have been called, so
the functions of the inode layer over it are trees of calls (`BlockProg`).

* `interp_inodeWrite` — with the calls answered by some `BlockOps`, the tree of
  `inode_write` is `inode_write` over these.
-/
import OsLab.Fs.Inode
import OsLab.Lib.Calls

namespace OsLab

/-- The calls to a block cache. -/
inductive BlockCall
  | acquire (n : ℕ)
  | data (b : ℕ)
  | store (b : ℕ) (d : BlockData)
  | sync (ctx : Option ℕ) (b : ℕ)
  | release (b : ℕ)

/-- What a call returns. -/
def BlockCall.Ret : BlockCall → Type
  | .acquire _ => ℕ
  | .data _ => BlockData
  | _ => Unit

/-- Programs over the block cache. -/
abbrev BlockProg : Type → Type := Prog BlockCall BlockCall.Ret Fault

/-- The calls, as functions of the block cache. -/
def progOps : BlockOps BlockProg where
  acquire n := Prog.ask (BlockCall.acquire n)
  data b := Prog.ask (BlockCall.data b)
  store b d := Prog.ask (BlockCall.store b d)
  sync ctx b := Prog.ask (BlockCall.sync ctx b)
  release b := Prog.ask (BlockCall.release b)

/-- The block cache of the programs. -/
def progCache (sb : SuperBlock) : BlockCache BlockProg := progOps.withBitmap sb

section Interp

variable {σ : Type} {sb : SuperBlock} {ctx : Option ℕ} {inode : Inode}

/-- The answers of some functions of the block cache. -/
def BlockOps.answer (ops : BlockOps (StateT σ (Except Fault))) :
    (c : BlockCall) → StateT σ (Except Fault) c.Ret
  | .acquire n => ops.acquire n
  | .data b => ops.data b
  | .store b d => ops.store b d
  | .sync ctx b => ops.sync ctx b
  | .release b => ops.release b

variable (ops : BlockOps (StateT σ (Except Fault)))

@[simp] theorem interp_acquire (n : ℕ) :
    (progOps.acquire n).interp ops.answer = ops.acquire n := Prog.interp_ask _

@[simp] theorem interp_data (b : ℕ) :
    (progOps.data b).interp ops.answer = ops.data b := Prog.interp_ask _

@[simp] theorem interp_store (b : ℕ) (d : BlockData) :
    (progOps.store b d).interp ops.answer = ops.store b d := Prog.interp_ask _

@[simp] theorem interp_sync (ctx : Option ℕ) (b : ℕ) :
    (progOps.sync ctx b).interp ops.answer = ops.sync ctx b := Prog.interp_ask _

@[simp] theorem interp_release (b : ℕ) :
    (progOps.release b).interp ops.answer = ops.release b := Prog.interp_ask _

theorem interp_cacheAllocFrom (ks : List ℕ) :
    (cacheAllocFrom sb progOps ctx ks).interp ops.answer = cacheAllocFrom sb ops ctx ks := by
  induction ks with
  | nil => rfl
  | cons k ks ih =>
    simp only [cacheAllocFrom, Prog.interp_bind, interp_acquire, interp_data]
    refine bind_congr fun b => bind_congr fun d => ?_
    cases firstFree sb d (k * bitPerBlock) with
    | some i =>
      simp only [Prog.interp_bind, interp_store, interp_sync, interp_release, interp_acquire,
        Prog.interp_pure]
    | none => simp only [Prog.interp_bind, interp_release, ih]

theorem interp_alloc : ((progCache sb).alloc ctx).interp ops.answer = (ops.withBitmap sb).alloc ctx :=
  interp_cacheAllocFrom ops _

theorem interp_free (n : ℕ) :
    ((progCache sb).free ctx n).interp ops.answer = (ops.withBitmap sb).free ctx n := by
  simp only [progCache, BlockOps.withBitmap, cacheFree, Prog.interp_bind, interp_acquire,
    interp_data, interp_store, interp_sync, interp_release]

@[simp] theorem progCache_toBlockOps : (progCache sb).toBlockOps = progOps := rfl

@[simp] theorem withBitmap_toBlockOps : (ops.withBitmap sb).toBlockOps = ops := rfl

theorem interp_mapIndirect (k : ℕ) :
    (mapIndirect (progCache sb) ctx inode k).interp ops.answer
      = mapIndirect (ops.withBitmap sb) ctx inode k := by
  simp only [mapIndirect, progCache_toBlockOps, withBitmap_toBlockOps, Prog.interp_bind,
    interp_acquire, interp_data]
  refine bind_congr fun b => bind_congr fun d => ?_
  split
  · split
    · simp only [Prog.interp_bind, interp_release, Prog.interp_pure]
    · simp only [Prog.interp_bind, interp_alloc, interp_store, interp_sync, interp_release,
        Prog.interp_pure]
  · simp only [Prog.interp_bind, interp_sync, interp_release, Prog.interp_pure]

theorem interp_inodeMap (offset : ℕ) :
    (inodeMap (progCache sb) ctx inode offset).interp ops.answer
      = inodeMap (ops.withBitmap sb) ctx inode offset := by
  simp only [inodeMap]
  split
  · split
    · split
      · rfl
      · simp only [Prog.interp_bind, interp_alloc, Prog.interp_pure]
    · rfl
  · split
    · split
      · split
        · rfl
        · simp only [Prog.interp_bind, interp_alloc, interp_mapIndirect]
      · exact interp_mapIndirect ops _
    · rfl

theorem interp_writeChunk {src : ℕ → UInt8} {count offset total : ℕ} :
    (writeChunk (progCache sb) ctx src count offset total inode).interp ops.answer
      = writeChunk (ops.withBitmap sb) ctx src count offset total inode := by
  simp only [writeChunk, progCache_toBlockOps, withBitmap_toBlockOps, Prog.interp_bind,
    interp_inodeMap, interp_acquire, interp_data, interp_store, interp_sync, interp_release,
    Prog.interp_pure]

theorem interp_forChunks {α : Type} {count : ℕ} {body : ℕ → ℕ → α → BlockProg α}
    {body' : ℕ → ℕ → α → StateT σ (Except Fault) α}
    (hbody : ∀ offset total x, (body offset total x).interp ops.answer = body' offset total x) :
    ∀ fuel offset total x, (forChunks count body fuel offset total x).interp ops.answer
      = forChunks count body' fuel offset total x := by
  intro fuel
  induction fuel with
  | zero => exact fun _ _ _ => rfl
  | succ fuel ih =>
    intro offset total x
    rw [forChunks, forChunks]
    split
    · simp only [Prog.interp_bind, hbody, ih]
    · rfl

theorem interp_inodeSync {doWrite : Bool} :
    (inodeSync sb (progCache sb) ctx inode doWrite).interp ops.answer
      = inodeSync sb (ops.withBitmap sb) ctx inode doWrite := by
  simp only [inodeSync, progCache_toBlockOps, withBitmap_toBlockOps, Prog.interp_bind,
    interp_acquire, interp_data]
  refine bind_congr fun b => bind_congr fun d => ?_
  split
  · simp only [Prog.interp_bind, interp_store, interp_sync, interp_release, Prog.interp_pure]
  · split
    · simp only [Prog.interp_bind, interp_release, Prog.interp_pure]
    · split
      · simp only [Prog.interp_bind, interp_release, Prog.interp_pure]
      · simp only [Prog.interp_bind, interp_release, Prog.interp_pure, Prog.interp_throw]

/-- **`inode_write`** over a block cache is its tree of calls, answered by that cache. -/
theorem interp_inodeWrite {src : ℕ → UInt8} {offset count : ℕ} :
    (inodeWrite sb (progCache sb) ctx inode src offset count).interp ops.answer
      = inodeWrite sb (ops.withBitmap sb) ctx inode src offset count := by
  simp only [inodeWrite]
  split
  · simp only [Prog.interp_bind]
    rw [interp_forChunks ops fun _ _ _ => interp_writeChunk ops]
    refine bind_congr fun x => ?_
    split
    · simp only [Prog.interp_bind, interp_inodeSync, Prog.interp_pure]
    · rfl
  · rfl

end Interp

end OsLab
