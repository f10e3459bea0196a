/-
The bitmap as the set of the allocated block numbers.

`cache_alloc` and `cache_free` run over `loggedOps`, on any super block whose bitmap lies
on the disk; its last block may be full, and then the outer loop of `cache_alloc` reads
one block more, in which the inner loop makes no pass.

* `wp_traced_alloc`, `wp_traced_free` — one call: the blocks after it, and what it syncs;
* `bitmapSystem` — any sequence of calls, each in an operation of its own;
* `bitmap_conforms` — in every state that is reached, `cache_alloc` takes the least number
  that is not allocated and `cache_free` gives its number back, and nothing else changes;
* `free_any_number` — when `cache_free` of any number at all changes nothing else.

Nothing prevents the caller from freeing a block of the bitmap itself.  The next
`cache_alloc` may return it and fill it with zeros, and then the bits in it are lost
(`bitmap_block_freed`).  Nor is the number compared with that of the blocks: one that is
too large selects a block after the bitmap, and a bit of a data block is cleared.
-/
import OsLab.Fs.LoggedStore
import Mathlib.Order.Bounds.Basic

namespace OsLab

/-- The bitmap block that has the bit of block `n`. -/
def bitmapBlock (sb : SuperBlock) (n : ℕ) : ℕ := sb.bitmapStart + n / bitPerBlock

/-- The blocks whose bit is set. -/
def allocated (sb : SuperBlock) (v : ℕ → BlockData) : Finset ℕ :=
  (Finset.range sb.numBlocks).filter fun n => bitOf sb v n = true

/-- `n` is the least number that is not allocated. -/
def LeastFree (sb : SuperBlock) (s : BlockStore) (n : ℕ) : Prop :=
  IsLeast {m | m < sb.numBlocks ∧ m ∉ allocated sb s.blocks} n

/-- The store after `cache_alloc` has taken block `n`. -/
def BlockStore.take (sb : SuperBlock) (s : BlockStore) (n : ℕ) : BlockStore :=
  { s with
    blocks := Function.update (Function.update s.blocks (bitmapBlock sb n)
      ((s.blocks (bitmapBlock sb n)).setBit (n % bitPerBlock))) n (.fill 0) }

/-- The store after `cache_free` of block `n`. -/
def BlockStore.drop (sb : SuperBlock) (s : BlockStore) (n : ℕ) : BlockStore :=
  { s with
    blocks := Function.update s.blocks (bitmapBlock sb n)
      ((s.blocks (bitmapBlock sb n)).clearBit (n % bitPerBlock)) }

/-- The blocks of `l` that go to the log: without a context they are written to the disk. -/
def logSynced (ctx : Option ℕ) (l : List ℕ) : List ℕ := if ctx = none then [] else l

/-! ### One call -/

section Calls

variable {sb : SuperBlock} {s : BlockStore} {l : List ℕ} {ctx : Option ℕ} {n b : ℕ}
  {d : BlockData} {E : Fault → Prop}

theorem mem_allocated {v : ℕ → BlockData} :
    n ∈ allocated sb v ↔ n < sb.numBlocks ∧ bitOf sb v n = true := by
  rw [allocated, Finset.mem_filter, Finset.mem_range]

theorem logSynced_cons : logSynced ctx [b] ++ logSynced ctx l = logSynced ctx (b :: l) := by
  rw [logSynced, logSynced, logSynced]
  split <;> rfl

theorem wp_traced_acquire {Q : ℕ → BlockStore × List ℕ → Prop} (hE : s.held ≠ ∅ → E .blocked)
    (hQ : n ∉ s.held → Q n ({ s with held := insert n s.held }, l)) :
    wp (tracedOps.acquire n) Q E (s, l) := by
  refine wp_besideTrace.mpr ?_
  by_cases hn : n ∈ s.held
  · simp only [mapOps, wp_bind, wp_get]
    rw [if_pos hn]
    exact hE (Finset.ne_empty_of_mem hn)
  · exact BlockStore.wp_acquire hn (hQ hn)

theorem wp_traced_data {Q : BlockData → BlockStore × List ℕ → Prop} (hQ : Q (s.blocks b) (s, l)) :
    wp (tracedOps.data b) Q E (s, l) := wp_besideTrace.mpr (BlockStore.wp_data hQ)

theorem wp_traced_store {Q : Unit → BlockStore × List ℕ → Prop}
    (hQ : Q () ({ s with blocks := Function.update s.blocks b d }, l)) :
    wp (tracedOps.store b d) Q E (s, l) := wp_besideTrace.mpr (BlockStore.wp_store hQ)

theorem wp_traced_release {Q : Unit → BlockStore × List ℕ → Prop}
    (hQ : Q () ({ s with held := s.held.erase b }, l)) :
    wp (tracedOps.release b) Q E (s, l) := wp_besideTrace.mpr (BlockStore.wp_release hQ)

theorem wp_traced_sync {Q : Unit → BlockStore × List ℕ → Prop}
    (hQ : Q () (s, l ++ logSynced ctx [b])) : wp (tracedOps.sync ctx b) Q E (s, l) := by
  cases ctx with
  | none =>
    rw [logSynced, if_pos rfl, List.append_nil] at hQ
    exact hQ
  | some op => exact hQ

/-- The bits of the blocks before bitmap block `k` are set, and so are its first `i` bits. -/
theorem bitOf_before {v : ℕ → BlockData} {k i x : ℕ}
    (hbefore : ∀ x < k * bitPerBlock, x < sb.numBlocks → bitOf sb v x = true)
    (hset : ∀ j < i, j + k * bitPerBlock < sb.numBlocks → (v (sb.bitmapStart + k)).bit j = true)
    (hi : i ≤ bitPerBlock) (hx : x < k * bitPerBlock + i) (hlt : x < sb.numBlocks) :
    bitOf sb v x = true := by
  by_cases hxk : x < k * bitPerBlock
  · exact hbefore x hxk hlt
  · have hx' : x = k * bitPerBlock + (x - k * bitPerBlock) := by omega
    rw [hx', BlockStore.bitOf_eq (by omega)]
    exact hset _ (by omega) (by omega)

/-- The loop of `cache_alloc` from bitmap block `k` on: the bits of the blocks before it are
set, so that the first clear bit is the least number that is not allocated. -/
theorem wp_traced_allocFrom {Q : ℕ → BlockStore × List ℕ → Prop} {len k : ℕ}
    (hE : ∀ e, (s.held = ∅ → e = .panic ∧ ∀ m < sb.numBlocks, m ∈ allocated sb s.blocks) → E e)
    (hQ : ∀ n, LeastFree sb s n → Q n (s.take sb n, l ++ logSynced ctx [bitmapBlock sb n, n]))
    (hk : k + len = 1 + sb.numBlocks / bitPerBlock)
    (hbefore : ∀ x < k * bitPerBlock, x < sb.numBlocks → bitOf sb s.blocks x = true) :
    wp (cacheAllocFrom sb tracedOps ctx (List.range' k len)) Q E (s, l) := by
  have hblocked : s.held ≠ ∅ → E .blocked := fun hne => hE _ fun h => absurd h hne
  induction len generalizing k with
  | zero =>
    rw [List.range'_zero, cacheAllocFrom, wp_throw]
    refine hE _ fun _ => ⟨rfl, fun m hm => mem_allocated.mpr ⟨hm, hbefore m ?_ hm⟩⟩
    -- the loop has gone over all bitmap blocks
    rw [Nat.add_zero] at hk
    rw [hk, Nat.add_comm, ← Nat.div_lt_iff_lt_mul (by decide)]
    exact Nat.lt_succ_of_le (Nat.div_le_div_right (Nat.le_of_lt hm))
  | succ len ih =>
    rw [List.range'_succ, cacheAllocFrom, wp_bind]
    refine wp_traced_acquire hblocked fun hnot => ?_
    rw [wp_bind]
    refine wp_traced_data ?_
    dsimp only
    cases hfree : firstFree sb (s.blocks (sb.bitmapStart + k)) (k * bitPerBlock) with
    | none =>
      simp only [wp_bind]
      refine wp_traced_release ?_
      dsimp only
      rw [Finset.erase_insert hnot]
      refine ih (by omega) fun x hx hlt => ?_
      rw [Nat.add_mul, Nat.one_mul] at hx
      exact bitOf_before hbefore (fun j hj => firstFree_eq_none hfree hj) (Nat.le_refl _) hx hlt
    | some i =>
      obtain ⟨hi, hlt, hbit⟩ := firstFree_eq_some hfree
      obtain ⟨hdiv, hmod⟩ := BlockStore.div_mod_bit (k := k) hi
      have hleast : LeastFree sb s (k * bitPerBlock + i) := by
        refine ⟨⟨by omega, fun hmem => ?_⟩, fun x hx => ?_⟩
        · rw [← BlockStore.bitOf_eq hi, (mem_allocated.mp hmem).2] at hbit
          cases hbit
        · by_contra hxlt
          refine hx.2 (mem_allocated.mpr ⟨hx.1, ?_⟩)
          exact bitOf_before hbefore (fun j => firstFree_first hfree) (Nat.le_of_lt hi) (by omega) hx.1
      have hres := hQ _ hleast
      rw [BlockStore.take, bitmapBlock, hdiv, hmod, ← logSynced_cons, ← List.append_assoc] at hres
      simp only [wp_bind]
      refine wp_traced_store (wp_traced_sync (wp_traced_release ?_))
      dsimp only
      rw [Finset.erase_insert hnot]
      refine wp_traced_acquire hblocked fun hnot' => ?_
      refine wp_traced_store (wp_traced_sync (wp_traced_release ?_))
      dsimp only
      rw [Finset.erase_insert hnot', wp_pure]
      exact hres

/-- **`cache_alloc`** takes the least block that is not allocated and syncs its bitmap
block and itself.  It panics when all blocks are allocated. -/
theorem wp_traced_alloc {Q : ℕ → BlockStore × List ℕ → Prop}
    (hE : ∀ e, (s.held = ∅ → e = .panic ∧ ∀ m < sb.numBlocks, m ∈ allocated sb s.blocks) → E e)
    (hQ : ∀ n, LeastFree sb s n → Q n (s.take sb n, l ++ logSynced ctx [bitmapBlock sb n, n])) :
    wp (cacheAlloc sb tracedOps ctx) Q E (s, l) := by
  rw [cacheAlloc, List.range_eq_range']
  exact wp_traced_allocFrom hE hQ (Nat.zero_add _) fun x hx => by omega

/-- **`cache_free`** clears the bit of its block and syncs the bitmap block. -/
theorem wp_traced_free {Q : Unit → BlockStore × List ℕ → Prop} (hE : s.held ≠ ∅ → E .blocked)
    (hQ : Q () (s.drop sb n, l ++ logSynced ctx [bitmapBlock sb n])) :
    wp (cacheFree sb tracedOps ctx n) Q E (s, l) := by
  simp only [cacheFree, wp_bind]
  refine wp_traced_acquire hE fun hnot => ?_
  refine wp_traced_data (wp_traced_store (wp_traced_sync (wp_traced_release ?_)))
  dsimp only
  rw [Finset.erase_insert hnot]
  exact hQ

end Calls

/-! ### Sequences of calls -/

/-- `n` is a block of the bitmap. -/
def SuperBlock.InBitmap (sb : SuperBlock) (n : ℕ) : Prop := ∃ m < sb.numBlocks, bitmapBlock sb m = n

instance (sb : SuperBlock) (n : ℕ) : Decidable (sb.InBitmap n) :=
  inferInstanceAs (Decidable (∃ m < _, _))

/-- The bitmap lies on the disk, and the bits of its own blocks are set. -/
structure BitmapMarked (sb : SuperBlock) (v : ℕ → BlockData) : Prop where
  inside : ∀ n, sb.InBitmap n → n < sb.numBlocks
  marked : ∀ n, sb.InBitmap n → bitOf sb v n = true

/-- The functions of the allocator. -/
inductive BitmapOp
  | alloc
  | free (n : ℕ)

/-- A call: its context, and the log and the `ctx->rm` that it finds. -/
structure BitmapCall where
  op : BitmapOp
  ctx : Option ℕ
  header : LogHeader
  log : Log
  rm : ℕ

/-- The call over some block store; the result is that of `cache_alloc`. -/
def BitmapOp.run {m : Type → Type} [Monad m] [MonadExceptOf Fault m] (sb : SuperBlock)
    (ops : BlockOps m) (ctx : Option ℕ) : BitmapOp → m (Option ℕ)
  | .alloc => do
    let n ← cacheAlloc sb ops ctx
    return some n
  | .free n => do
    cacheFree sb ops ctx n
    return none

/-- The outcome of a call. -/
def bitmapCall (sb : SuperBlock) (s : BlockStore) (c : BitmapCall) :
    Except Fault (Option ℕ × LoggedStore) :=
  (c.op.run sb loggedOps c.ctx).run ⟨s, c.header, c.log, c.rm⟩

/-- Any sequence of calls over a disk whose bitmap is marked. -/
def bitmapSystem (sb : SuperBlock) : System BlockStore BitmapCall where
  init s := BitmapMarked sb s.blocks ∧ s.held = ∅
  step s c :=
    match bitmapCall sb s c with
    | .ok (_, t) => some t.store
    | .error _ => none

/-- The block that is freed is a block of the disk that is not in the bitmap. -/
def BitmapOp.Allowed (sb : SuperBlock) : BitmapOp → Prop
  | .alloc => True
  | .free n => n < sb.numBlocks ∧ ¬ sb.InBitmap n

instance (sb : SuperBlock) : (op : BitmapOp) → Decidable (op.Allowed sb)
  | .alloc => inferInstanceAs (Decidable True)
  | .free _ => inferInstanceAs (Decidable (_ ∧ _))

/-- The call is allowed, and the log has entries for all that its operation may still
sync, as `cache_begin_op` sees to. -/
def BitmapCall.Allowed (sb : SuperBlock) (c : BitmapCall) : Prop :=
  c.op.Allowed sb ∧ c.header.numBlocks + c.rm ≤ logMaxSize

instance (sb : SuperBlock) (c : BitmapCall) : Decidable (c.Allowed sb) :=
  inferInstanceAs (Decidable (_ ∧ _))

/-- The blocks of `l` that the log does not have yet are at most `ctx->rm`. -/
def BitmapCall.Room (c : BitmapCall) (l : List ℕ) : Prop :=
  ((logSynced c.ctx l).toFinset \ c.header.logged.toFinset).card ≤ c.rm

/-- `cache_alloc` has returned `n`. -/
structure BlockStore.Taken (sb : SuperBlock) (s : BlockStore) (n : ℕ) (t : BlockStore) : Prop where
  least : LeastFree sb s n
  set : allocated sb t.blocks = insert n (allocated sb s.blocks)
  zero : t.blocks n = .fill 0
  /-- also the bits of the last bitmap block that belong to no block -/
  bits : ∀ m, sb.InBitmap (bitmapBlock sb m) →
    bitOf sb t.blocks m = if m = n then true else bitOf sb s.blocks m
  blocks : ∀ b, b ≠ n → b ≠ bitmapBlock sb n → t.blocks b = s.blocks b

/-- `cache_free` of block `n` has returned. -/
structure BlockStore.Freed (sb : SuperBlock) (s : BlockStore) (n : ℕ) (t : BlockStore) : Prop where
  set : allocated sb t.blocks = (allocated sb s.blocks).erase n
  bits : ∀ m, bitOf sb t.blocks m = if m = n then false else bitOf sb s.blocks m
  blocks : ∀ b, b ≠ bitmapBlock sb n → t.blocks b = s.blocks b

/-- The panic of `cache_sync` in a call without room. -/
def BitmapCall.overdrawn (c : BitmapCall) : Fault := c.header.overdrawn c.rm

/-- How `cache_alloc` fails: all blocks are allocated, or the log has no room for its block. -/
def AllocFails (sb : SuperBlock) (s : BlockStore) (c : BitmapCall) (e : Fault) : Prop :=
  e = .panic ∧ (∀ n < sb.numBlocks, n ∈ allocated sb s.blocks) ∨
    e = c.overdrawn ∧ ∃ n, LeastFree sb s n ∧ ¬ c.Room [bitmapBlock sb n, n]

/-- What a call does to the set of the allocated blocks, when it does not return, and how it
ends then. -/
def BitmapConforms (sb : SuperBlock) (s : BlockStore) (c : BitmapCall) : Prop :=
  match c.op with
  | .alloc =>
    (∀ r t, bitmapCall sb s c = .ok (r, t) → ∃ n, r = some n ∧ s.Taken sb n t.store) ∧
    (∀ e, bitmapCall sb s c = .error e ↔ AllocFails sb s c e)
  | .free n =>
    (∀ r t, bitmapCall sb s c = .ok (r, t) → r = none ∧ s.Freed sb n t.store) ∧
    (∀ e, bitmapCall sb s c = .error e ↔ e = c.overdrawn ∧ ¬ c.Room [bitmapBlock sb n])

section Sequences

variable {sb : SuperBlock} {s t : BlockStore} {c : BitmapCall} {n : ℕ}

/-- A block whose bit is clear is not in the bitmap. -/
theorem BitmapMarked.not_inBitmap {v : ℕ → BlockData} (h : BitmapMarked sb v)
    (hn : n ∉ allocated sb v) : ¬ sb.InBitmap n := fun hb =>
  hn (mem_allocated.mpr ⟨h.inside n hb, h.marked n hb⟩)

/-- What `cache_alloc` does when the block that it takes is not in the bitmap. -/
theorem BlockStore.taken (hleast : LeastFree sb s n) (hn : ¬ sb.InBitmap n) :
    s.Taken sb n (s.take sb n) := by
  have hbits : ∀ m, sb.InBitmap (bitmapBlock sb m) →
      bitOf sb (s.take sb n).blocks m = if m = n then true else bitOf sb s.blocks m := by
    intro m hm
    have hne : sb.bitmapStart + m / bitPerBlock ≠ n := fun h => hn (h ▸ hm)
    have hblock : (s.take sb n).blocks (sb.bitmapStart + m / bitPerBlock)
        = Function.update s.blocks (bitmapBlock sb n) ((s.blocks (bitmapBlock sb n)).setBit
          (n % bitPerBlock)) (sb.bitmapStart + m / bitPerBlock) := Function.update_of_ne hne _ _
    rw [bitOf, hblock]
    exact bitOf_setBit s.blocks n m
  refine ⟨hleast, ?_, Function.update_self _ _ _, hbits, fun b hbn hbb => ?_⟩
  · ext m
    rw [Finset.mem_insert, mem_allocated, mem_allocated]
    constructor
    · rintro ⟨hm, hbit⟩
      rw [hbits m ⟨m, hm, rfl⟩] at hbit
      by_cases hmn : m = n
      · exact .inl hmn
      · rw [if_neg hmn] at hbit
        exact .inr ⟨hm, hbit⟩
    · rintro (rfl | ⟨hm, hbit⟩)
      · exact ⟨hleast.1.1, by rw [hbits m ⟨m, hleast.1.1, rfl⟩, if_pos rfl]⟩
      · rw [hbits m ⟨m, hm, rfl⟩, hbit, ite_self]
        exact ⟨hm, rfl⟩
  · show Function.update (Function.update s.blocks _ _) n _ b = s.blocks b
    rw [Function.update_of_ne hbn, Function.update_of_ne hbb]

/-- What `cache_free` does. -/
theorem BlockStore.freed (s : BlockStore) (n : ℕ) : s.Freed sb n (s.drop sb n) := by
  have hbits : ∀ m, bitOf sb (s.drop sb n).blocks m
      = if m = n then false else bitOf sb s.blocks m := bitOf_clearBit s.blocks n
  refine ⟨?_, hbits, fun b hb => Function.update_of_ne hb _ _⟩
  ext m
  rw [Finset.mem_erase, mem_allocated, mem_allocated, hbits]
  by_cases hmn : m = n
  · simp [hmn]
  · simp [hmn]

/-- A call over the calls to the block cache, and over their answers. -/
theorem interp_bitmapOp {σ : Type} (ops : BlockOps (StateT σ (Except Fault))) (ctx : Option ℕ)
    (op : BitmapOp) : (op.run sb progOps ctx).interp ops.answer = op.run sb ops ctx := by
  cases op with
  | alloc =>
    have halloc : (cacheAlloc sb progOps ctx).interp ops.answer = cacheAlloc sb ops ctx :=
      interp_alloc ops
    simp only [BitmapOp.run, Prog.interp_bind, halloc, Prog.interp_pure]
  | free n =>
    have hfree : (cacheFree sb progOps ctx n).interp ops.answer = cacheFree sb ops ctx n :=
      interp_free ops n
    simp only [BitmapOp.run, Prog.interp_bind, hfree, Prog.interp_pure]

/-- **`cache_alloc` panics** when all blocks are allocated, whatever it finds in the log. -/
theorem wp_logged_full (ctx : Option ℕ) {x : LoggedStore} (hheld : x.store.held = ∅)
    (hfull : ∀ n < sb.numBlocks, n ∈ allocated sb x.store.blocks) :
    wp (BitmapOp.run sb loggedOps ctx .alloc) (fun _ _ => False) (fun e => e = .panic) x := by
  have hloop : ∀ ks, wp (cacheAllocFrom sb loggedOps ctx ks) (fun _ _ => False)
      (fun e => e = .panic) x := by
    intro ks
    induction ks with
    | nil => rfl
    | cons k ks ih =>
      have hnot : sb.bitmapStart + k ∉ x.store.held := by
        rw [hheld]
        exact Finset.notMem_empty _
      rw [cacheAllocFrom, wp_bind]
      refine wp_onBlocks.mpr (BlockStore.wp_acquire hnot ?_)
      rw [wp_bind]
      refine wp_onBlocks.mpr (BlockStore.wp_data ?_)
      dsimp only
      cases hfree : firstFree sb (x.store.blocks (sb.bitmapStart + k)) (k * bitPerBlock) with
      | some i =>
        -- no bit is clear
        obtain ⟨hi, hlt, hbit⟩ := firstFree_eq_some hfree
        have hset := (mem_allocated.mp (hfull (k * bitPerBlock + i) (by omega))).2
        rw [BlockStore.bitOf_eq hi, hbit] at hset
        cases hset
      | none =>
        simp only [wp_bind]
        refine wp_onBlocks.mpr (BlockStore.wp_release ?_)
        dsimp only
        rw [Finset.erase_insert hnot]
        exact ih
  rw [BitmapOp.run, wp_bind]
  exact wp_mono (hloop _) (fun _ _ hfalse => hfalse.elim) fun _ he => he

/-- **`cache_alloc` over the log.** -/
theorem wp_logged_alloc (sb : SuperBlock) (c : BitmapCall) (hheld : s.held = ∅)
    (hroom : c.header.numBlocks + c.rm ≤ logMaxSize) :
    wp (BitmapOp.run sb loggedOps c.ctx .alloc)
      (fun r x => ∃ n, r = some n ∧ LeastFree sb s n ∧ x.store = s.take sb n ∧
        c.Room [bitmapBlock sb n, n])
      (AllocFails sb s c) ⟨s, c.header, c.log, c.rm⟩ := by
  by_cases hfull : ∀ n < sb.numBlocks, n ∈ allocated sb s.blocks
  · exact wp_mono (wp_logged_full c.ctx hheld hfull) (fun _ _ hfalse => hfalse.elim)
      fun e he => .inl ⟨he, hfull⟩
  rw [← interp_bitmapOp]
  have htraced : wp ((BitmapOp.run sb progOps c.ctx .alloc).interp tracedOps.answer)
      (fun r x => ∃ n, LeastFree sb s n ∧
        (r, x) = (some n, s.take sb n, logSynced c.ctx [bitmapBlock sb n, n]))
      (fun _ => False) (s, []) := by
    rw [interp_bitmapOp, BitmapOp.run, wp_bind]
    exact wp_traced_alloc (fun e h => hfull (h hheld).2) fun n hleast => ⟨n, hleast, rfl⟩
  refine wp_mono (wp_logged htraced hroom) ?_ ?_
  · rintro r x ⟨m, ⟨n, hleast, heq⟩, hcard⟩
    obtain ⟨hr, heq⟩ := Prod.mk.inj heq
    obtain ⟨hstore, rfl⟩ := Prod.mk.inj heq
    exact ⟨n, hr, hleast, hstore, hcard⟩
  · rintro e (⟨-, hfalse⟩ | ⟨he, r, t, m, ⟨n, hleast, heq⟩, hcard⟩)
    · exact hfalse.elim
    · obtain ⟨-, rfl⟩ := Prod.mk.inj (Prod.mk.inj heq).2
      exact .inr ⟨he, n, hleast, Nat.not_le_of_lt hcard⟩

/-- **`cache_free` over the log.** -/
theorem wp_logged_free (sb : SuperBlock) (c : BitmapCall) (n : ℕ) (hheld : s.held = ∅)
    (hroom : c.header.numBlocks + c.rm ≤ logMaxSize) :
    wp (BitmapOp.run sb loggedOps c.ctx (.free n))
      (fun r x => r = none ∧ x.store = s.drop sb n ∧ c.Room [bitmapBlock sb n])
      (fun e => e = c.overdrawn ∧ ¬ c.Room [bitmapBlock sb n])
      ⟨s, c.header, c.log, c.rm⟩ := by
  rw [← interp_bitmapOp]
  have htraced : wp ((BitmapOp.run sb progOps c.ctx (.free n)).interp tracedOps.answer)
      (fun r x => (r, x) = (none, s.drop sb n, logSynced c.ctx [bitmapBlock sb n]))
      (fun _ => False) (s, []) := by
    rw [interp_bitmapOp, BitmapOp.run, wp_bind]
    exact wp_traced_free (fun hne => hne hheld) rfl
  refine wp_mono (wp_logged htraced hroom) ?_ ?_
  · rintro r x ⟨m, heq, hcard⟩
    obtain ⟨hr, heq⟩ := Prod.mk.inj heq
    obtain ⟨hstore, rfl⟩ := Prod.mk.inj heq
    exact ⟨hr, hstore, hcard⟩
  · rintro e (⟨-, hfalse⟩ | ⟨he, r, t, m, heq, hcard⟩)
    · exact hfalse.elim
    · obtain ⟨-, rfl⟩ := Prod.mk.inj (Prod.mk.inj heq).2
      exact ⟨he, Nat.not_le_of_lt hcard⟩

/-- **One call** from a marked bitmap. -/
theorem bitmap_step (hmark : BitmapMarked sb s.blocks) (hheld : s.held = ∅) (hc : c.Allowed sb) :
    BitmapConforms sb s c := by
  obtain ⟨op, ctx, header, log, rm⟩ := c
  obtain ⟨-, hroom⟩ := hc
  cases op with
  | alloc =>
    have hrun := wp_logged_alloc sb ⟨.alloc, ctx, header, log, rm⟩ hheld hroom
    refine ⟨fun r t hok => ?_, run_error_iff hrun ?_ ?_⟩
    · have hdone := wp_run hrun hok
      obtain ⟨n, hr, hleast, hstore, -⟩ := hdone
      refine ⟨n, hr, ?_⟩
      rw [hstore]
      exact BlockStore.taken hleast (hmark.not_inBitmap hleast.1.2)
    · rintro r x ⟨n, -, hleast, -, hcard⟩ e (⟨-, hall⟩ | ⟨-, n', hleast', hno⟩)
      · exact hleast.1.2 (hall n hleast.1.1)
      · obtain rfl : n = n' := IsLeast.unique hleast hleast'
        exact hno hcard
    · rintro e e' (⟨rfl, hall⟩ | ⟨rfl, n, hleast, -⟩) (⟨rfl, hall'⟩ | ⟨rfl, n', hleast', -⟩)
      · rfl
      · exact absurd (hall n' hleast'.1.1) hleast'.1.2
      · exact absurd (hall' n hleast.1.1) hleast.1.2
      · rfl
  | free n =>
    have hrun := wp_logged_free sb ⟨.free n, ctx, header, log, rm⟩ n hheld hroom
    refine ⟨fun r t hok => ?_, run_error_iff hrun ?_ ?_⟩
    · have hdone := wp_run hrun hok
      obtain ⟨hr, hstore, -⟩ := hdone
      rw [hstore]
      exact ⟨hr, BlockStore.freed s n⟩
    · rintro r x ⟨-, -, hcard⟩ e ⟨-, hno⟩
      exact hno hcard
    · rintro e e' ⟨rfl, -⟩ ⟨rfl, -⟩
      rfl

/-- The step of a call that returns. -/
theorem bitmapSystem_cases (hheld : s.held = ∅) (hroom : c.header.numBlocks + c.rm ≤ logMaxSize)
    (hs : (bitmapSystem sb).step s c = some t) :
    (∃ n, c.op = .alloc ∧ LeastFree sb s n ∧ t = s.take sb n) ∨
    (∃ n, c.op = .free n ∧ t = s.drop sb n) := by
  obtain ⟨op, ctx, header, log, rm⟩ := c
  simp only [bitmapSystem] at hs
  split at hs
  · rename_i r x hrun
    obtain rfl := Option.some.inj hs
    cases op with
    | alloc =>
      have hdone := wp_run (wp_logged_alloc sb ⟨.alloc, ctx, header, log, rm⟩ hheld hroom) hrun
      obtain ⟨n, -, hleast, hstore, -⟩ := hdone
      exact .inl ⟨n, rfl, hleast, hstore⟩
    | free n =>
      have hdone := wp_run (wp_logged_free sb ⟨.free n, ctx, header, log, rm⟩ n hheld hroom) hrun
      exact .inr ⟨n, rfl, hdone.2.1⟩
  · cases hs

/-- The bitmap stays marked, and no call holds a block when it returns. -/
theorem bitmap_inv (h : (bitmapSystem sb).Reachable (fun _ c => c.Allowed sb) s) :
    BitmapMarked sb s.blocks ∧ s.held = ∅ := by
  refine h.induction (fun _ h => h) fun s c t hinv hc hs => ?_
  obtain ⟨hmark, hheld⟩ := hinv
  rcases bitmapSystem_cases hheld hc.2 hs with ⟨n, -, hleast, rfl⟩ | ⟨n, hop, rfl⟩
  · have htaken := BlockStore.taken hleast (hmark.not_inBitmap hleast.1.2)
    refine ⟨⟨hmark.inside, fun b hb => ?_⟩, hheld⟩
    have hset := Finset.mem_insert_of_mem (b := n)
      (mem_allocated.mpr ⟨hmark.inside b hb, hmark.marked b hb⟩)
    rw [← htaken.set] at hset
    exact (mem_allocated.mp hset).2
  · -- the block that is freed is not in the bitmap
    refine ⟨⟨hmark.inside, fun b hb => ?_⟩, hheld⟩
    have hne : b ≠ n := by
      rintro rfl
      have hallow := hc.1
      rw [hop] at hallow
      exact hallow.2 hb
    rw [(BlockStore.freed s n).bits, if_neg hne]
    exact hmark.marked b hb

end Sequences

/-- **The bitmap is a set of block numbers.**  In every state that a sequence of calls
reaches, `cache_alloc` returns the least number that is not allocated, adds it and leaves
its block filled with zeros, or it panics as there is none or the log has no room; and
`cache_free` takes its number away, or panics as the log has no room.  No other bit and no
other block changes. -/
theorem bitmap_conforms (sb : SuperBlock) (s : BlockStore)
    (h : (bitmapSystem sb).Reachable (fun _ c => c.Allowed sb) s) (c : BitmapCall)
    (hc : c.Allowed sb) : BitmapConforms sb s c := by
  obtain ⟨hmark, hheld⟩ := bitmap_inv h
  exact bitmap_step hmark hheld hc

/-- A call of an operation over an empty log. -/
def BitmapCall.first (op : BitmapOp) (rm : ℕ) : BitmapCall :=
  ⟨op, some 0, ⟨0, fun _ => 0⟩, ⟨false, 1⟩, rm⟩

/-- The bitmap of a disk whose one data block is free. -/
theorem marked_tiny : BitmapMarked .tiny (FsState.blankBlocks .tiny) := by
  constructor
  · rintro n ⟨m, hm, rfl⟩
    revert m
    decide
  · rintro n ⟨m, hm, rfl⟩
    revert m
    decide

/-- The data block is taken, a metadata block is given back and taken again. -/
theorem bitmap_conforms_tiny : ∃ s : BlockStore,
    allocated .tiny s.blocks = {0, 1, 2, 3, 4} ∧
    BitmapConforms .tiny s (.first .alloc 10) ∧
    BitmapConforms .tiny s (.first (.free 4) 10) := by
  have hrun : ((bitmapSystem .tiny).exec (fun _ c => c.Allowed .tiny)
      ⟨FsState.blankBlocks .tiny, ∅⟩
      [.first .alloc 10, .first (.free 1) 10, .first .alloc 10]).map
      (fun s => allocated .tiny s.blocks) = some {0, 1, 2, 3, 4} := by
    decide +kernel
  obtain ⟨s, hs, hset⟩ := Option.map_eq_some_iff.mp hrun
  have hreach : (bitmapSystem .tiny).Reachable (fun _ c => c.Allowed .tiny) s :=
    ⟨_, ⟨marked_tiny, rfl⟩, System.leads_of_exec hs⟩
  exact ⟨s, hset, bitmap_conforms .tiny s hreach _ (by decide),
    bitmap_conforms .tiny s hreach _ (by decide)⟩

/-- Block 3 is the bitmap.  After `cache_free` of it, `cache_alloc` returns it and fills it
with zeros, so that no bit is set; and `cache_alloc` panics on a disk with a free block
when the operation may sync no more blocks. -/
theorem bitmap_block_freed :
    (bitmapSystem .tiny).init ⟨FsState.blankBlocks .tiny, ∅⟩ ∧
    ((bitmapSystem .tiny).exec (fun _ _ => True) ⟨FsState.blankBlocks .tiny, ∅⟩
      [.first (.free 3) 10]).map (fun s => (allocated .tiny s.blocks,
        (bitmapCall .tiny s (.first .alloc 10)).toOption.map fun r =>
          (r.1, allocated .tiny r.2.store.blocks)))
      = some ({0, 1, 2}, some (some 3, ∅)) ∧
    (allocated .tiny (FsState.blankBlocks .tiny) = {0, 1, 2, 3} ∧
      failure (bitmapCall .tiny ⟨FsState.blankBlocks .tiny, ∅⟩ (.first .alloc 0))
        = some .panic) :=
  ⟨⟨marked_tiny, rfl⟩, by decide +kernel, by decide +kernel⟩

/-! ### Any number -/

/-- What is promised of a `cache_free` of block `n` that has returned, whatever `n` is. -/
structure BlockStore.FreeFrame (sb : SuperBlock) (s : BlockStore) (n : ℕ) (t : BlockStore) :
    Prop where
  blocks : ∀ b, ¬ sb.InBitmap b → t.blocks b = s.blocks b
  bits : ∀ b, ∀ i < bitPerBlock, ¬ (b = bitmapBlock sb n ∧ i = n % bitPerBlock) →
    (t.blocks b).bit i = (s.blocks b).bit i
  /-- a number that is no block of the disk -/
  invalid : sb.numBlocks ≤ n → t = s

/-- A block is determined by its bits. -/
theorem BlockData.eq_of_bit {d d' : BlockData} (h : ∀ i < bitPerBlock, d.bit i = d'.bit i) :
    d = d' := by
  funext k
  have hk := k.isLt
  refine UInt8.toBitVec_inj.mp (BitVec.eq_of_getLsbD_eq fun j hj => ?_)
  have hdiv : (8 * k.val + j) / 8 = k.val := by omega
  have hmod : (8 * k.val + j) % 8 = j := by omega
  have hbit := h (8 * k.val + j) (by simp only [bitPerBlock]; omega)
  rw [bit_eq, bit_eq, hdiv, hmod, byte_of_lt _ hk, byte_of_lt _ hk] at hbit
  exact hbit

section AnyNumber

variable {sb : SuperBlock} {s t : BlockStore} {n : ℕ}

/-- **`cache_free` over the log**, of any number and from any state: when it returns, the
bit is clear. -/
theorem free_store {ctx : Option ℕ} {header : LogHeader} {log : Log} {rm : ℕ} {r : Option ℕ}
    {x : LoggedStore} (hrun : bitmapCall sb s ⟨.free n, ctx, header, log, rm⟩ = .ok (r, x)) :
    x.store = s.drop sb n := by
  rw [bitmapCall, ← interp_bitmapOp] at hrun
  have htraced : wp ((BitmapOp.run sb progOps ctx (.free n)).interp tracedOps.answer)
      (fun _ x => x.1 = s.drop sb n) (fun _ => True) (s, []) := by
    rw [interp_bitmapOp, BitmapOp.run, wp_bind]
    exact wp_traced_free (fun _ => trivial) rfl
  rw [wp] at htraced
  rcases outcome (BitmapOp.run sb progOps ctx (.free n)) s with
    ⟨e, -, -, hg⟩ | ⟨a, t, m, -, ht, hg⟩
  · obtain ⟨f, hf⟩ := hg header log rm
    rw [hf] at hrun
    cases hrun
  · rw [ht] at htraced
    rw [hg] at hrun
    cases hm : absorbAll header rm m with
    | error e =>
      rw [hm] at hrun
      cases hrun
    | ok r =>
      rw [hm] at hrun
      cases hrun
      exact htraced

/-- Clearing a bit that is clear changes nothing. -/
theorem BlockStore.drop_of_clear
    (h : (s.blocks (bitmapBlock sb n)).bit (n % bitPerBlock) = false) : s.drop sb n = s := by
  have hclear : (s.blocks (bitmapBlock sb n)).clearBit (n % bitPerBlock)
      = s.blocks (bitmapBlock sb n) := by
    refine BlockData.eq_of_bit fun i hi => ?_
    rw [BlockData.bit_clearBit _ hi]
    by_cases hin : i = n % bitPerBlock
    · rw [hin, h, Bool.and_false]
    · simp [hin]
  rw [BlockStore.drop, hclear, Function.update_eq_self]

/-- What is promised holds of a block of the disk, and of a number whose bit is clear. -/
theorem BlockStore.freeFrame_iff : s.FreeFrame sb n (s.drop sb n) ↔
    n < sb.numBlocks ∨ (s.blocks (bitmapBlock sb n)).bit (n % bitPerBlock) = false := by
  constructor
  · intro hframe
    by_contra hno
    obtain ⟨hle, hset⟩ := not_or.mp hno
    apply hset
    -- nothing has changed, but the bit is clear after the call
    have hdrop := hframe.invalid (Nat.le_of_not_lt hle)
    have hself : (s.drop sb n).blocks (bitmapBlock sb n)
        = (s.blocks (bitmapBlock sb n)).clearBit (n % bitPerBlock) := Function.update_self _ _ _
    rw [← hdrop, hself, BlockData.bit_clearBit _ (Nat.mod_lt _ (by decide))]
    simp
  · rintro (hlt | hclear)
    · refine ⟨fun b hb => ?_, fun b i hi hne => ?_, fun hle => absurd hlt (Nat.not_lt_of_le hle)⟩
      · exact Function.update_of_ne (fun hbn => hb ⟨n, hlt, hbn.symm⟩) _ _
      · by_cases hb : b = bitmapBlock sb n
        · subst hb
          have hself : (s.drop sb n).blocks (bitmapBlock sb n)
              = (s.blocks (bitmapBlock sb n)).clearBit (n % bitPerBlock) :=
            Function.update_self _ _ _
          have hin : i ≠ n % bitPerBlock := fun hin => hne ⟨rfl, hin⟩
          rw [hself, BlockData.bit_clearBit _ hi]
          simp [hin]
        · have hsame : (s.drop sb n).blocks b = s.blocks b := Function.update_of_ne hb _ _
          rw [hsame]
    · rw [BlockStore.drop_of_clear hclear]
      exact ⟨fun _ _ => rfl, fun _ _ _ _ => rfl, fun _ => rfl⟩

end AnyNumber

/-- **`cache_free` of any number.**  A call that returns changes a bit of the bitmap only,
that of its block, and nothing for an invalid number, exactly when the number is a block
of the disk or the bit that it clears is clear. -/
theorem free_any_number (sb : SuperBlock) (s : BlockStore) (n : ℕ) (ctx : Option ℕ)
    (header : LogHeader) (log : Log) (rm : ℕ) (r : Option ℕ) (x : LoggedStore)
    (hrun : bitmapCall sb s ⟨.free n, ctx, header, log, rm⟩ = .ok (r, x)) :
    s.FreeFrame sb n x.store ↔
      n < sb.numBlocks ∨ (s.blocks (bitmapBlock sb n)).bit (n % bitPerBlock) = false := by
  rw [free_store hrun]
  exact BlockStore.freeFrame_iff

/-- The small disk, whose data block is full of ones. -/
def BlockStore.ones : BlockStore :=
  ⟨Function.update (FsState.blankBlocks .tiny) 4 (.fill 255), ∅⟩

/-- The number after the last bit of the bitmap block: the data block follows the bitmap. -/
theorem free_any_number_tiny : ∃ x : LoggedStore,
    bitmapCall .tiny .ones (.first (.free bitPerBlock) 10) = .ok (none, x) ∧
    ¬ BlockStore.ones.FreeFrame .tiny bitPerBlock x.store := by
  have hok : ∃ x, bitmapCall .tiny .ones (.first (.free bitPerBlock) 10) = .ok (none, x) :=
    ⟨_, rfl⟩
  obtain ⟨x, hx⟩ := hok
  refine ⟨x, hx, fun hframe => ?_⟩
  have hcond := (free_any_number .tiny .ones bitPerBlock _ _ _ _ _ _ hx).mp hframe
  revert hcond
  decide

/-- `cache_free` of the number 4096 on a disk of 5 blocks: the data block loses a bit. -/
theorem free_invalid_number : ¬ ∀ (sb : SuperBlock) (s : BlockStore) (n : ℕ) (r : Option ℕ)
    (x : LoggedStore), bitmapCall sb s (.first (.free n) 10) = .ok (r, x) →
    s.FreeFrame sb n x.store := by
  intro hall
  have hrun : (bitmapCall .tiny .ones (.first (.free bitPerBlock) 10)).toOption.map
      (fun r => (BlockStore.ones.blocks 4 0, r.2.store.blocks 4 0)) = some (255, 254) := by
    decide
  cases hx : bitmapCall .tiny .ones (.first (.free bitPerBlock) 10) with
  | error e =>
    rw [hx] at hrun
    cases hrun
  | ok r =>
    rw [hx] at hrun
    have hstore := (hall .tiny .ones bitPerBlock r.1 r.2 hx).invalid (by decide)
    have hbyte := congrArg Prod.snd (Option.some.inj hrun)
    dsimp only at hbyte
    rw [hstore] at hbyte
    revert hbyte
    decide

end OsLab
