/-
How many blocks `inode_write` syncs.

The functions of the inode layer run over `tracedOps`, which keeps the list of the blocks
that are synced.  A write touches its file blocks, the indirect block when it goes behind
the direct ones, the bitmap blocks of the blocks that it allocates, and the block of the
inode when the file grows (`opCost`).

* `Takes` — `cache_alloc` takes the free blocks in order;
* `traced_inodeMap`, `traced_writeChunk` — what one pass of the loop adds to the list;
* `traced_inodeWrite` — a write syncs `opCost` different blocks.
-/
import OsLab.Fs.BitmapAlloc
import OsLab.Lib.Search

namespace OsLab

/-- The free data blocks in order. -/
def freeBlocks (sb : SuperBlock) (used : Finset ℕ) : List ℕ :=
  (List.range' sb.dataStart (sb.numBlocks - sb.dataStart)).filter fun n => decide (n ∉ used)

/-- How many bitmap blocks have the bits of the first `m` free blocks. -/
def bitmapHits (sb : SuperBlock) (used : Finset ℕ) (m : ℕ) : ℕ :=
  (((freeBlocks sb used).take m).toFinset.image (bitmapBlock sb)).card

/-- How many blocks a write of `n > 0` bytes at `offset` syncs in a file of `size` bytes,
when the data blocks `used` are in use. -/
def opCost (sb : SuperBlock) (used : Finset ℕ) (size offset n : ℕ) : ℕ :=
  ((offset + n - 1) / blockSize - offset / blockSize + 1)
    + (if inodeNumDirect ≤ (offset + n - 1) / blockSize then 1 else 0)
    + bitmapHits sb used (blocksFor (max size (offset + n)) - blocksFor size)
    + (if size < offset + n then 1 else 0)

/-- The blocks and the list. -/
def Traced (v : ℕ → BlockData) (l : List ℕ) (s : BlockStore × List ℕ) : Prop :=
  s.1.blocks = v ∧ s.2 = l

section Rules

variable {v : ℕ → BlockData} {l : List ℕ} {s : BlockStore × List ℕ} {n b op : ℕ} {d : BlockData}

theorem traced_acquire {Q : ℕ → BlockStore × List ℕ → Prop} (h : Traced v l s)
    (hQ : ∀ t, Traced v l t → Q n t) : wp (tracedOps.acquire n) Q (fun _ => True) s := by
  refine wp_besideTrace.mpr ?_
  by_cases hn : n ∈ s.1.held
  · simp only [mapOps, wp_bind, wp_get]
    rw [if_pos hn]
    trivial
  · exact BlockStore.wp_acquire hn (hQ _ h)

theorem traced_data {Q : BlockData → BlockStore × List ℕ → Prop} (h : Traced v l s)
    (hQ : Q (v b) s) : wp (tracedOps.data b) Q (fun _ => True) s := by
  refine wp_besideTrace.mpr (BlockStore.wp_data ?_)
  rw [h.1]
  exact hQ

theorem traced_store {Q : Unit → BlockStore × List ℕ → Prop} (h : Traced v l s)
    (hQ : ∀ t, Traced (Function.update v b d) l t → Q () t) :
    wp (tracedOps.store b d) Q (fun _ => True) s :=
  wp_besideTrace.mpr (BlockStore.wp_store (hQ _ ⟨by rw [h.1], h.2⟩))

theorem traced_sync {Q : Unit → BlockStore × List ℕ → Prop} (h : Traced v l s)
    (hQ : ∀ t, Traced v (l ++ [b]) t → Q () t) :
    wp (tracedOps.sync (some op) b) Q (fun _ => True) s := by
  refine hQ _ ⟨h.1, ?_⟩
  rw [← h.2]

theorem traced_release {Q : Unit → BlockStore × List ℕ → Prop} (h : Traced v l s)
    (hQ : ∀ t, Traced v l t → Q () t) : wp (tracedOps.release b) Q (fun _ => True) s :=
  wp_besideTrace.mpr (BlockStore.wp_release (hQ _ h))

end Rules

/-! ### The free blocks -/

/-- The blocks of `a` have been allocated, each when it was the first free one. -/
structure Takes (sb : SuperBlock) (v : ℕ → BlockData) (a : Finset ℕ) (w : ℕ → BlockData) :
    Prop where
  bits : ∀ x < sb.numBlocks, bitOf sb w x = true ↔ bitOf sb v x = true ∨ x ∈ a
  fresh : ∀ n ∈ a, n < sb.numBlocks ∧ bitOf sb v n = false
  first : ∀ n ∈ a, ∀ x < n, bitOf sb w x = true

section Takes

variable {sb : SuperBlock} {u v w : ℕ → BlockData} {a b : Finset ℕ} {n : ℕ} {d : BlockData}

theorem Takes.refl : Takes sb v ∅ v :=
  ⟨fun x _ => by simp, fun n hn => absurd hn (Finset.notMem_empty n),
    fun n hn => absurd hn (Finset.notMem_empty n)⟩

theorem Takes.trans (h : Takes sb v a w) (h' : Takes sb w b u) : Takes sb v (a ∪ b) u := by
  refine ⟨fun x hx => ?_, fun n hn => ?_, fun n hn x hx => ?_⟩
  · rw [h'.bits x hx, h.bits x hx, Finset.mem_union, or_assoc]
  · rcases Finset.mem_union.mp hn with hn | hn
    · exact h.fresh n hn
    · obtain ⟨hlt, hfresh⟩ := h'.fresh n hn
      refine ⟨hlt, Bool.eq_false_iff.mpr fun hv => ?_⟩
      rw [(h.bits n hlt).mpr (.inl hv)] at hfresh
      cases hfresh
  · rcases Finset.mem_union.mp hn with hn | hn
    · have hlt := (h.fresh n hn).1
      exact (h'.bits x (by omega)).mpr (.inl (h.first n hn x hx))
    · exact h'.first n hn x hx

/-- Storing a data block changes no bit. -/
theorem Takes.store (hl : sb.Layout) (h : Takes sb v a w) (hn : sb.dataStart ≤ n) :
    Takes sb v a (Function.update w n d) := by
  refine ⟨fun x hx => ?_, h.fresh, fun m hm x hx => ?_⟩
  · rw [BlockStore.bitOf_update_data hl hn hx]
    exact h.bits x hx
  · have hlt := (h.fresh m hm).1
    rw [BlockStore.bitOf_update_data hl hn (by omega)]
    exact h.first m hm x hx

/-- The blocks before the data area stay marked. -/
theorem Takes.marked (h : Takes sb v a w) (hv : ∀ x < sb.dataStart, bitOf sb v x = true) :
    ∀ x < sb.dataStart, bitOf sb w x = true := fun x hx =>
  (h.bits x (Nat.lt_of_lt_of_le hx (Nat.sub_le _ _))).mpr (.inl (hv x hx))

/-- The blocks that have been taken are data blocks. -/
theorem Takes.inData (h : Takes sb v a w) (hv : ∀ x < sb.dataStart, bitOf sb v x = true)
    (hn : n ∈ a) : sb.InData n := by
  obtain ⟨hlt, hfresh⟩ := h.fresh n hn
  refine ⟨?_, hlt⟩
  by_contra hstart
  rw [hv n (by omega)] at hfresh
  cases hfresh

end Takes

section Functions

variable {sb : SuperBlock} {v : ℕ → BlockData} {l : List ℕ} {s : BlockStore × List ℕ}
  {op k offset : ℕ} {inode : Inode}

/-- `cache_alloc` takes the first free block and syncs its bitmap block and itself. -/
theorem traced_alloc {Q : ℕ → BlockStore × List ℕ → Prop} (hl : sb.Layout)
    (hmark : ∀ x < sb.dataStart, bitOf sb v x = true) (h : Traced v l s)
    (hQ : ∀ n w t, sb.InData n → w n = .fill 0 → Takes sb v {n} w →
      Traced w (l ++ [bitmapBlock sb n, n]) t → Q n t) :
    wp ((tracedOps.withBitmap sb).alloc (some op)) Q (fun _ => True) s := by
  obtain ⟨store, l'⟩ := s
  obtain ⟨rfl, rfl⟩ := h
  refine wp_traced_alloc (fun _ _ => trivial) fun n hleast => ?_
  obtain ⟨⟨hlt, hnot⟩, hfirst⟩ := hleast
  have hfresh : bitOf sb store.blocks n = false :=
    Bool.eq_false_iff.mpr fun hbit => hnot (mem_allocated.mpr ⟨hlt, hbit⟩)
  have hstart : sb.dataStart ≤ n := by
    by_contra hmeta
    rw [hmark n (by omega)] at hfresh
    cases hfresh
  have hbits : ∀ x < sb.numBlocks, bitOf sb (store.take sb n).blocks x
      = if x = n then true else bitOf sb store.blocks x := fun x hx => by
    rw [BlockStore.take, BlockStore.bitOf_update_data hl hstart hx]
    exact BlockStore.bitOf_setBit _ n x
  refine hQ n (store.take sb n).blocks _ ⟨hstart, hlt⟩ (Function.update_self _ _ _) ?_ ⟨rfl, rfl⟩
  refine ⟨fun x hx => ?_, fun m hm => ?_, fun m hm x hx => ?_⟩
  · rw [hbits x hx, Finset.mem_singleton]
    by_cases hxn : x = n <;> simp [hxn]
  · rw [Finset.mem_singleton.mp hm]
    exact ⟨hlt, hfresh⟩
  · -- a number below the least free one is allocated
    rw [Finset.mem_singleton.mp hm] at hx
    rw [hbits x (by omega), if_neg (by omega)]
    by_contra hbit
    have hle := hfirst ⟨by omega, fun hmem => hbit (mem_allocated.mp hmem).2⟩
    omega

/-- What `inode_map` of file block `k` does, up to the block `r.1` that it returns: the
blocks `a` are taken, and `m` is synced. -/
structure MapTrace (sb : SuperBlock) (e : InodeEntry) (v : ℕ → BlockData) (k : ℕ) (r : ℕ × Inode)
    (w : ℕ → BlockData) (m : List ℕ) (a : Finset ℕ) : Prop where
  keep : e.indirect ≠ 0 → r.2.entry.indirect = e.indirect
  takes : Takes sb v a w
  synced : insert r.1 m.toFinset = insert r.1
    ((if inodeNumDirect ≤ k then {r.2.entry.indirect.toNat} else ∅) ∪ a.image (bitmapBlock sb))

private theorem traced_mapIndirect {Q : ℕ × Inode → BlockStore × List ℕ → Prop} {j : ℕ}
    (hl : sb.Layout) (hmark : ∀ x < sb.dataStart, bitOf sb v x = true)
    (hind : sb.dataStart ≤ inode.entry.indirect.toNat) (h : Traced v l s)
    (hQ : ∀ n w m a t, Traced w (l ++ m) t → Takes sb v a w →
      insert n m.toFinset = insert n (insert inode.entry.indirect.toNat (a.image (bitmapBlock sb))) →
      Q (n, inode) t) :
    wp (mapIndirect (tracedOps.withBitmap sb) (some op) inode j) Q (fun _ => True) s := by
  set b := inode.entry.indirect.toNat with hb
  simp only [mapIndirect, wp_bind, withBitmap_toBlockOps]
  refine traced_acquire h fun t h => traced_data h ?_
  split
  · simp only [reduceCtorEq, if_false, wp_bind]
    refine traced_alloc hl hmark h fun n w t hn _ htake h => ?_
    have hnat := hl.toNat_ofNat hn
    refine traced_store h fun t h => traced_sync h fun t h => traced_release h fun t h => ?_
    rw [wp_pure, hnat]
    rw [List.append_assoc] at h
    refine hQ n _ _ {n} t h (htake.store hl hind) ?_
    simp only [List.cons_append, List.nil_append, List.toFinset_cons, List.toFinset_nil,
      Finset.image_singleton]
    rw [Finset.insert_comm (bitmapBlock sb n) n, Finset.insert_idem, Finset.insert_comm
      (bitmapBlock sb n)]
    rfl
  · simp only [wp_bind]
    refine traced_sync h fun t h => traced_release h fun t h => ?_
    rw [wp_pure]
    exact hQ _ _ _ ∅ t h .refl rfl

/-- **`inode_map`** syncs the bitmap blocks of the blocks that it takes, and the indirect
block. -/
theorem traced_inodeMap {Q : ℕ × Inode → BlockStore × List ℕ → Prop} (hl : sb.Layout)
    (hmark : ∀ x < sb.dataStart, bitOf sb v x = true)
    (hind : inode.entry.indirect ≠ 0 → sb.dataStart ≤ inode.entry.indirect.toNat)
    (h : Traced v l s) (hk : offset / blockSize = k) (hmax : k < inodeMaxBlocks)
    (hQ : ∀ r w m a t, Traced w (l ++ m) t → MapTrace sb inode.entry v k r w m a → Q r t) :
    wp (inodeMap (tracedOps.withBitmap sb) (some op) inode offset) Q (fun _ => True) s := by
  have h32 : k % 2 ^ 32 = k := Nat.mod_eq_of_lt (by
    have : inodeMaxBlocks < 2 ^ 32 := by decide
    omega)
  simp only [inodeMap, hk, h32]
  by_cases hdirect : k < inodeNumDirect
  · have hle : ¬ inodeNumDirect ≤ k := by omega
    rw [if_pos hdirect]
    by_cases h0 : inode.entry.addr k = 0
    · rw [if_pos h0]
      simp only [reduceCtorEq, if_false, wp_bind]
      refine traced_alloc hl hmark h fun n w t hn _ htake h => ?_
      rw [wp_pure, hl.toNat_ofNat hn]
      refine hQ _ w _ {n} t h ⟨fun _ => rfl, htake, ?_⟩
      rw [if_neg hle, Finset.image_singleton, Finset.empty_union, List.toFinset_cons,
        List.toFinset_cons, List.toFinset_nil, Finset.insert_comm (bitmapBlock sb n),
        Finset.insert_idem]
      rfl
    · rw [if_neg h0, wp_pure]
      refine hQ _ v [] ∅ s (by rw [List.append_nil]; exact h) ⟨fun _ => rfl, .refl, ?_⟩
      rw [if_neg hle]
      rfl
  · have hle : inodeNumDirect ≤ k := by omega
    have hj : k - inodeNumDirect < inodeNumIndirect := by
      simp only [inodeMaxBlocks] at hmax
      omega
    rw [if_neg hdirect, if_pos hj]
    by_cases h0 : inode.entry.indirect = 0
    · -- the indirect block is taken first
      rw [if_pos h0]
      simp only [reduceCtorEq, if_false, wp_bind]
      refine traced_alloc hl hmark h fun i w t hi _ htake h => ?_
      have hnat := hl.toNat_ofNat hi
      refine traced_mapIndirect hl (htake.marked hmark) (by rw [hnat]; exact hi.1) h
        fun n u m a t h htake' hm => ?_
      rw [List.append_assoc] at h
      refine hQ _ u _ ({i} ∪ a) t h ⟨fun hne => absurd h0 hne, htake.trans htake', ?_⟩
      dsimp only at hm ⊢
      rw [hnat] at hm ⊢
      rw [if_pos hle, List.toFinset_append, Finset.image_union, Finset.image_singleton,
        ← Finset.union_insert, hm, List.toFinset_cons, List.toFinset_cons, List.toFinset_nil]
      simp only [Finset.insert_union, Finset.empty_union, Finset.singleton_union]
      rw [Finset.insert_comm i n, Finset.insert_idem, Finset.insert_comm (bitmapBlock sb i) n,
        Finset.insert_comm (bitmapBlock sb i) i]
    · rw [if_neg h0]
      refine traced_mapIndirect hl hmark (hind h0) h fun n u m a t h htake hm => ?_
      refine hQ _ u _ a t h ⟨fun _ => rfl, htake, ?_⟩
      rw [if_pos hle, hm]
      rfl

end Functions

/-! ### One pass of the loop -/

section Loop

open MapCache

variable {sb : SuperBlock} {s : BlockStore × List ℕ} {A B : MapState} {ents : ℕ → InodeEntry}
  {i op offset count total : ℕ} {src : ℕ → UInt8} {inode : Inode} {e : InodeEntry}

theorem view_of_at {hl : sb.Layout} {x : BlockStore} (h : (bitmapCache sb hl).At x B) :
    B.view = x.blocks := by
  rw [← h.2]
  rfl

/-- What `inode_map` does to the blocks, it does next to the list. -/
private theorem wp_inodeMap_traced {ctx : Option ℕ} {Q : ℕ × Inode → BlockStore → Prop}
    {E : Fault → Prop} (h : wp (inodeMap (mapOps.withBitmap sb) ctx inode offset) Q E s.1) :
    wp (inodeMap (tracedOps.withBitmap sb) ctx inode offset) (fun r t => Q r t.1) E s := by
  rw [← interp_inodeMap mapOps] at h
  rw [← interp_inodeMap tracedOps]
  exact wp_traced h s.2

/-- What one pass of the loop of `inode_write` syncs: its file block `k`, the indirect block
and the bitmap blocks of the blocks `a` that it takes.  `c` is the number of file blocks
before the pass. -/
structure ChunkTrace (sb : SuperBlock) (e : InodeEntry) (v : ℕ → BlockData) (c k : ℕ)
    (l : List ℕ) (e' : InodeEntry) (t : BlockStore × List ℕ) (a : Finset ℕ) : Prop where
  keep : ∀ j < c, blockOf e' t.1.blocks j = blockOf e v j
  indirect : e.indirect ≠ 0 → e'.indirect = e.indirect
  takes : Takes sb v a t.1.blocks
  synced : t.2.toFinset = insert (blockOf e' t.1.blocks k) (l.toFinset
    ∪ ((if inodeNumDirect ≤ k then {e'.indirect.toNat} else ∅) ∪ a.image (bitmapBlock sb)))

theorem traced_writeChunk (hl : sb.Layout) (hheld : A.held = ∅)
    (h : (bitmapCache sb hl).At s.1 B) (hw : Writing sb A ents i src offset total B e)
    (he : inode.entry = e) (htotal : total < count) (hmax : offset + count ≤ inodeMaxBytes) :
    wp (writeChunk (tracedOps.withBitmap sb) (some op) src count (offset + total) total inode)
      (fun x t => ∃ a, ChunkTrace sb e B.view
        (fileBlocks (max (ents i).numBytes.toNat (offset + total))) ((offset + total) / blockSize)
        s.2 x.entry t a) (fun _ => True) s := by
  set q := offset + total with hq
  set c := fileBlocks (max (ents i).numBytes.toNat q) with hc
  set k := q / blockSize with hk
  have hkmax : k < inodeMaxBlocks := by
    have hlt := div_lt_fileBlocks (show q < inodeMaxBytes by omega)
    exact Nat.lt_of_lt_of_le hlt (fileBlocks_le (Nat.le_refl _))
  have hkc : k ≤ c := div_le_fileBlocks _ _
  have hself : (Function.update ents i e) i = e := Function.update_self _ _ _
  have hview := view_of_at h
  have hmark : ∀ x < sb.dataStart, bitOf sb B.view x = true := by
    rw [hview]
    exact h.1.bits
  have hind : e.indirect ≠ 0 → sb.dataStart ≤ e.indirect.toNat := by
    intro hne
    have hmem := indirect_mem (i := i) hw.owns (by rwa [hself])
    rw [hself] at hmem
    exact (h.inData hmem).1
  -- the blocks after `inode_map`
  have hblocks : wp (inodeMap (mapOps.withBitmap sb) (some op) inode q)
      (fun r t => ∃ e₁ B₁, (bitmapCache sb hl).At t B₁ ∧
        Mapped sb B (Function.update ents i e) i c k B₁ e₁ ∧
        r = (blockOf e₁ B₁.view k, { inode with entry := e₁ })) (fun _ => True) s.1 := by
    have hm : Maps (Function.update ents i e i) B.view c := by
      rw [hself]
      exact hw.maps
    exact MapCache.wp_inodeMap (M := bitmapCache sb hl) hl h (hw.held.trans hheld) hw.owns (he.trans hself.symm) hm
      hkmax hkc rfl (fun _ _ => trivial) fun e₁ t B₁ ht hm => ⟨e₁, B₁, ht, hm, rfl⟩
  -- and the list
  have hlist : wp (inodeMap (tracedOps.withBitmap sb) (some op) inode q)
      (fun r t => ∃ w m a, Traced w (s.2 ++ m) t ∧ MapTrace sb e B.view k r w m a)
      (fun _ => True) s := by
    refine traced_inodeMap hl hmark (he ▸ hind) ⟨hview.symm, rfl⟩ hk.symm hkmax
      fun r w m a t ht hm => ⟨w, m, a, ht, ?_⟩
    rwa [he] at hm
  simp only [writeChunk, wp_bind, withBitmap_toBlockOps]
  refine wp_mono (wp_and (wp_inodeMap_traced hblocks) hlist) ?_ fun _ _ => trivial
  rintro r t ⟨⟨e₁, B₁, ht, hm, rfl⟩, w, m, a, htr, hmt⟩
  obtain rfl : w = B₁.view := by rw [view_of_at ht, htr.1]
  have ho₁ := hm.owns
  rw [Function.update_idem] at ho₁
  have hself₁ : (Function.update ents i e₁) i = e₁ := Function.update_self _ _ _
  have hne : blockOf e₁ B₁.view k ≠ 0 := (hm.maps.block _ hkmax).mpr (by omega)
  have hdata : sb.dataStart ≤ blockOf e₁ B₁.view k := by
    have hmem := ho₁.mem_used (k := (i, k)) (by rw [slots, hself₁]; exact hne)
    rw [slots, hself₁] at hmem
    exact (ht.inData hmem).1
  refine traced_acquire htr fun t htr => traced_data htr ?_
  refine traced_store htr fun t htr => traced_sync htr fun t htr => traced_release htr fun t htr => ?_
  rw [wp_pure]
  set n := blockOf e₁ B₁.view k with hn
  -- storing into the file block moves no block
  have hsame : ∀ j, blockOf e₁ t.1.blocks j = blockOf e₁ B₁.view j := by
    intro j
    have hstore := (store_fileBlock (i := i)
      ((B₁.view n).patch (q % blockSize) (chunk q (count - total)) fun j => src (total + j))
      ho₁ hkmax (by rw [hself₁]; exact hne)).1 (i, j)
    rw [htr.1]
    simpa only [slots, hself₁] using hstore
  refine ⟨a, fun j hj => ?_, hmt.keep, ?_, ?_⟩
  · rw [hsame, (hm.content j hj).1, hself]
  · rw [htr.1]
    exact hmt.takes.store hl hdata
  · rw [hsame, ← hn, htr.2]
    calc (s.2 ++ m ++ [n]).toFinset = s.2.toFinset ∪ insert n m.toFinset := by
          rw [List.toFinset_append, List.toFinset_append, List.toFinset_cons, List.toFinset_nil,
            Finset.union_assoc, Finset.union_insert, Finset.union_empty]
      _ = _ := by rw [hmt.synced, Finset.union_insert]

end Loop

/-! ### The whole write -/

/-- The slots that a write has used after `total` bytes: those of its file blocks, and that
of the indirect block. -/
def touched (offset total : ℕ) : Finset ℕ :=
  if total = 0 then ∅ else Finset.Ico (offset / blockSize) (fileBlocks (offset + total))
    ∪ if inodeNumDirect < fileBlocks (offset + total) then {indirectSlot} else ∅

private theorem mem_ite_singleton {p : Prop} [Decidable p] {x y : ℕ} :
    x ∈ (if p then {y} else ∅ : Finset ℕ) ↔ p ∧ x = y := by
  split <;> simp [*]

section Touched

variable {offset total step j : ℕ}

theorem mem_touched : j ∈ touched offset total ↔ total ≠ 0 ∧
    ((offset / blockSize ≤ j ∧ j < fileBlocks (offset + total)) ∨
      (inodeNumDirect < fileBlocks (offset + total) ∧ j = indirectSlot)) := by
  rw [touched]
  by_cases h0 : total = 0
  · simp [h0]
  · rw [if_neg h0, Finset.mem_union, Finset.mem_Ico, mem_ite_singleton]
    exact (and_iff_right h0).symm

/-- The file blocks up to the end of a pass. -/
theorem fileBlocks_pass {q : ℕ} (hpos : 0 < step) (hle : q % blockSize + step ≤ blockSize) :
    fileBlocks (q + step) = q / blockSize + 1 ∧ q / blockSize ≤ fileBlocks q ∧
      fileBlocks q ≤ q / blockSize + 1 := by
  simp only [fileBlocks, blockSize] at *
  omega

/-- The slots after one more pass. -/
theorem touched_step (hpos : 0 < step) (hle : (offset + total) % blockSize + step ≤ blockSize) :
    touched offset (total + step) = insert ((offset + total) / blockSize) (touched offset total
      ∪ if inodeNumDirect ≤ (offset + total) / blockSize then {indirectSlot} else ∅) := by
  obtain ⟨hlast, hlow, hhigh⟩ := fileBlocks_pass hpos hle
  have hlo : offset / blockSize ≤ (offset + total) / blockSize :=
    Nat.div_le_div_right (Nat.le_add_right _ _)
  have hzero : total = 0 → (offset + total) / blockSize = offset / blockSize := by
    rintro rfl
    rfl
  ext x
  rw [Finset.mem_insert, Finset.mem_union, mem_touched, mem_touched, mem_ite_singleton,
    ← Nat.add_assoc, hlast]
  omega

/-- How many slots a write uses. -/
theorem card_touched (hpos : 0 < total) (hmax : offset + total ≤ inodeMaxBytes) :
    (touched offset total).card = ((offset + total - 1) / blockSize - offset / blockSize + 1)
      + if inodeNumDirect ≤ (offset + total - 1) / blockSize then 1 else 0 := by
  have hlast : fileBlocks (offset + total) = (offset + total - 1) / blockSize + 1 := by
    simp only [fileBlocks, blockSize]
    omega
  have hle : offset / blockSize ≤ (offset + total - 1) / blockSize :=
    Nat.div_le_div_right (by omega)
  have hslot : fileBlocks (offset + total) ≤ indirectSlot := fileBlocks_le hmax
  rw [touched, if_neg (by omega), Finset.card_union_of_disjoint, Nat.card_Ico, hlast]
  · simp only [Nat.lt_succ_iff]
    split
    · rw [Finset.card_singleton]
      omega
    · rw [Finset.card_empty]
      omega
  · rw [Finset.disjoint_left]
    intro x hx hind
    obtain ⟨-, rfl⟩ := mem_ite_singleton.mp hind
    have := (Finset.mem_Ico.mp hx).2
    omega

end Touched

section Write

open MapCache

variable {sb : SuperBlock} {s t : BlockStore × List ℕ} {A B : MapState} {ents : ℕ → InodeEntry}
  {i op offset count total step nb : ℕ} {src : ℕ → UInt8} {inode : Inode} {e e' : InodeEntry}
  {v : ℕ → BlockData} {a b : Finset ℕ}

/-- What has been synced after `total` bytes: the blocks in the slots that are used, and the
bitmap blocks of the blocks `a` that have been taken from the free ones of `v`. -/
structure WriteTrace (sb : SuperBlock) (v : ℕ → BlockData) (offset total : ℕ) (e : InodeEntry)
    (t : BlockStore × List ℕ) (a : Finset ℕ) : Prop where
  takes : Takes sb v a t.1.blocks
  synced : t.2.toFinset
    = (touched offset total).image (blockOf e t.1.blocks) ∪ a.image (bitmapBlock sb)

theorem writeTrace_zero (hv : s.1.blocks = v) (hs : s.2 = []) :
    WriteTrace sb v offset 0 e s ∅ := by
  subst hv
  refine ⟨.refl, ?_⟩
  rw [hs, touched, if_pos rfl]
  rfl

/-- One more pass. -/
theorem WriteTrace.pass (hw : WriteTrace sb v offset total e s a)
    (hm : Maps e s.1.blocks (fileBlocks (max nb (offset + total)))) (hpos : 0 < step)
    (hle : (offset + total) % blockSize + step ≤ blockSize)
    (h : ChunkTrace sb e s.1.blocks (fileBlocks (max nb (offset + total)))
      ((offset + total) / blockSize) s.2 e' t b) :
    WriteTrace sb v offset (total + step) e' t (a ∪ b) := by
  refine ⟨hw.takes.trans h.takes, ?_⟩
  set q := offset + total with hq
  set k := q / blockSize with hk
  set c := fileBlocks (max nb q) with hc
  have hqc : fileBlocks q ≤ c := fileBlocks_mono (Nat.le_max_right _ _)
  -- the slots used before keep their blocks
  have hkeep : (touched offset total).image (blockOf e' t.1.blocks)
      = (touched offset total).image (blockOf e s.1.blocks) := by
    refine Finset.image_congr fun j hj => ?_
    have hused := mem_touched.mp hj
    rw [← hq] at hused
    obtain ⟨-, ⟨-, hlt⟩ | ⟨hind, rfl⟩⟩ := hused
    · exact h.keep j (by omega)
    · have hne : e.indirect ≠ 0 := hm.indirect.mpr (by omega)
      rw [blockOf_indirectSlot, blockOf_indirectSlot, h.indirect hne]
  have hslot : (if inodeNumDirect ≤ k then {indirectSlot} else ∅ : Finset ℕ).image
      (blockOf e' t.1.blocks) = if inodeNumDirect ≤ k then {e'.indirect.toNat} else ∅ := by
    split
    · rw [Finset.image_singleton, blockOf_indirectSlot]
    · rfl
  rw [touched_step hpos hle, Finset.image_insert, Finset.image_union, hkeep, hslot, h.synced,
    hw.synced, ← hq, ← hk, Finset.image_union]
  simp only [Finset.insert_union, Finset.union_assoc]
  congr 2
  rw [← Finset.union_assoc, ← Finset.union_assoc, Finset.union_comm (ite _ _ _) (a.image _)]

/-- The blocks that have been taken are the first free ones. -/
theorem Takes.eq_take {x y : BlockStore} (h : Takes sb x.blocks a y.blocks) (hx : x.Ok sb) :
    a = ((freeBlocks sb (x.used sb)).take a.card).toFinset := by
  have hrange : ∀ n, n ∈ freeBlocks sb (x.used sb) ↔ sb.InData n ∧ bitOf sb x.blocks n = false := by
    intro n
    have hle : sb.dataStart ≤ sb.numBlocks := Nat.sub_le _ _
    rw [freeBlocks, List.mem_filter, List.mem_range'_1, decide_eq_true_eq, BlockStore.mem_used,
      not_and, Bool.not_eq_true, SuperBlock.InData, Nat.add_sub_cancel' hle]
    exact ⟨fun h => ⟨h.1, h.2 h.1⟩, fun h => ⟨h.1, fun _ => h.2⟩⟩
  refine eq_toFinset_take (List.Pairwise.filter _ List.pairwise_lt_range') (fun n hn => ?_)
    fun n hn m hm hlt => ?_
  · exact (hrange n).mpr ⟨h.inData hx.bits hn, (h.fresh n hn).2⟩
  · obtain ⟨hdata, hfree⟩ := (hrange m).mp hm
    have hset := (h.bits m hdata.2).mp (h.first n hn m hlt)
    rw [hfree] at hset
    exact hset.resolve_left Bool.false_ne_true

/-- How many blocks have been taken. -/
theorem Takes.card_used {x y : BlockStore} (h : Takes sb x.blocks a y.blocks) (hx : x.Ok sb) :
    (y.used sb).card = (x.used sb).card + a.card := by
  have hused : y.used sb = x.used sb ∪ a := by
    ext n
    rw [Finset.mem_union, BlockStore.mem_used, BlockStore.mem_used]
    constructor
    · rintro ⟨hdata, hbit⟩
      exact ((h.bits n hdata.2).mp hbit).imp (fun hv => ⟨hdata, hv⟩) id
    · rintro (⟨hdata, hbit⟩ | hn)
      · exact ⟨hdata, (h.bits n hdata.2).mpr (.inl hbit)⟩
      · have hdata := h.inData hx.bits hn
        exact ⟨hdata, (h.bits n hdata.2).mpr (.inr hn)⟩
  rw [hused, Finset.card_union_of_disjoint]
  refine Finset.disjoint_left.mpr fun n hn hna => ?_
  have hfresh := (h.fresh n hna).2
  rw [(BlockStore.mem_used.mp hn).2] at hfresh
  cases hfresh

/-- How many blocks have been synced. -/
theorem card_writeTrace {x y : BlockStore} {hl : sb.Layout} (hx : x.Ok sb)
    (hy : (bitmapCache sb hl).At y B)
    (ho : Owns (slots (Function.update ents i e) B.view) B.used)
    (hm : Maps e B.view (fileBlocks (max nb (offset + total)))) (hpos : 0 < total)
    (hmax : offset + total ≤ inodeMaxBytes) (hn : toBlockNo sb i < sb.bitmapStart)
    (htake : Takes sb x.blocks a y.blocks)
    (hcard : B.used.card + blocksFor nb = (x.used sb).card + blocksFor (max nb (offset + total)))
    {l : List ℕ} (h : l.toFinset = ((touched offset total).image (blockOf e B.view)
      ∪ a.image (bitmapBlock sb)) ∪ if nb < offset + total then {toBlockNo sb i} else ∅) :
    l.toFinset.card = opCost sb (x.used sb) nb offset total := by
  have hself : ∀ j, slots (Function.update ents i e) B.view (i, j) = blockOf e B.view j :=
    fun j => by rw [slots, Function.update_self]
  -- all slots that are used have a block
  have hne : ∀ j ∈ touched offset total, blockOf e B.view j ≠ 0 := by
    intro j hj
    have hle : fileBlocks (offset + total) ≤ fileBlocks (max nb (offset + total)) :=
      fileBlocks_mono (Nat.le_max_right _ _)
    obtain ⟨-, ⟨-, hlt⟩ | ⟨hind, rfl⟩⟩ := mem_touched.mp hj
    · have hjmax := fileBlocks_le hmax
      exact (hm.block j (by omega)).mpr (by omega)
    · rw [blockOf_indirectSlot, ne_eq, toNat_eq_zero]
      exact hm.indirect.mpr (by omega)
  have hinj : Set.InjOn (blockOf e B.view) (touched offset total) := by
    intro j hj k hk heq
    have hjk := ho.inj (i, j) (i, k) (by rw [hself]; exact hne j hj) (by rw [hself, hself, heq])
    exact (Prod.mk.inj hjk).2
  have hdata : ∀ n ∈ (touched offset total).image (blockOf e B.view), sb.dataStart ≤ n := by
    intro n hn
    obtain ⟨j, hj, rfl⟩ := Finset.mem_image.mp hn
    have hmem := ho.mem_used (k := (i, j)) (by rw [hself]; exact hne j hj)
    rw [hself] at hmem
    exact (hy.inData hmem).1
  have hbitmap : ∀ n ∈ a.image (bitmapBlock sb), sb.bitmapStart ≤ n ∧ n < sb.dataStart := by
    intro n hn
    obtain ⟨m, hm, rfl⟩ := Finset.mem_image.mp hn
    exact ⟨Nat.le_add_right _ _, BlockStore.bitmapBlock_lt hl (htake.fresh m hm).1⟩
  have ha : a.card = blocksFor (max nb (offset + total)) - blocksFor nb := by
    have hused := htake.card_used hx
    have hB : B.used = y.used sb := by rw [← hy.2]; rfl
    rw [hB] at hcard
    omega
  have hhits : (a.image (bitmapBlock sb)).card
      = bitmapHits sb (x.used sb) (blocksFor (max nb (offset + total)) - blocksFor nb) := by
    rw [bitmapHits, ← ha, ← htake.eq_take hx]
  rw [h, Finset.card_union_of_disjoint, Finset.card_union_of_disjoint,
    Finset.card_image_of_injOn hinj, card_touched hpos hmax, hhits, opCost]
  · simp only [apply_ite Finset.card, Finset.card_singleton, Finset.card_empty]
  · refine Finset.disjoint_left.mpr fun n hn hbit => ?_
    have hstart := hdata n hn
    have hlt := (hbitmap n hbit).2
    omega
  · refine Finset.disjoint_left.mpr fun n hn' hino => ?_
    obtain ⟨-, rfl⟩ := mem_ite_singleton.mp hino
    have hlt : sb.bitmapStart < sb.dataStart :=
      Nat.lt_of_lt_of_le (Nat.lt_succ_self _) (Nat.le_trans (Nat.le_add_right _ _) hl.bitmap)
    rcases Finset.mem_union.mp hn' with himg | hbit
    · have hstart := hdata _ himg
      omega
    · have hstart := (hbitmap _ hbit).1
      omega

/-- What a pass does to the blocks, it does next to the list. -/
private theorem wp_writeChunk_traced (hl : sb.Layout) (hheld : A.held = ∅)
    (h : (bitmapCache sb hl).At s.1 B) (hw : Writing sb A ents i src offset total B e)
    (he : inode.entry = e) (htotal : total < count) (hmax : offset + count ≤ inodeMaxBytes) :
    wp (writeChunk (tracedOps.withBitmap sb) (some op) src count (offset + total) total inode)
      (fun x t => ∃ C e', (bitmapCache sb hl).At t.1 C ∧
        Writing sb A ents i src offset (total + chunk (offset + total) (count - total)) C e' ∧
        x = { inode with entry := e' }) (fun _ => True) s := by
  have hblocks : wp (writeChunk (mapOps.withBitmap sb) (some op) src count (offset + total) total
      inode) (fun x t => ∃ C e', (bitmapCache sb hl).At t C ∧
        Writing sb A ents i src offset (total + chunk (offset + total) (count - total)) C e' ∧
        x = { inode with entry := e' }) (fun _ => True) s.1 :=
    MapCache.wp_writeChunk (M := bitmapCache sb hl) hl hheld h hw he htotal hmax (fun _ _ => trivial)
      fun e' t C ht hw' => ⟨C, e', ht, hw', rfl⟩
  rw [← interp_writeChunk mapOps] at hblocks
  rw [← interp_writeChunk tracedOps]
  exact wp_traced hblocks s.2

/-- **`inode_write`** next to a list: it syncs `opCost` blocks, and needs as many free blocks
as the file gets. -/
theorem traced_inodeWrite (hl : sb.Layout) (h : (bitmapCache sb hl).At s.1 A) (hs : s.2 = [])
    (hheld : A.held = ∅) (ho : Owns (slots ents A.view) A.used) (he : inode.entry = ents i)
    (hno : inode.inodeNo = i) (hi : i < sb.numInodes) (hvalid : inode.valid = true)
    (hm : Maps (ents i) A.view (fileBlocks (ents i).numBytes.toNat))
    (hoff : offset ≤ (ents i).numBytes.toNat) (hpos : 0 < count)
    (hmax : offset + count ≤ inodeMaxBytes) :
    wp (inodeWrite sb (tracedOps.withBitmap sb) (some op) inode src offset count)
      (fun r t => r.1 = count ∧
        t.2.toFinset.card = opCost sb A.used (ents i).numBytes.toNat offset count ∧
        A.used.card + blocksFor (max (ents i).numBytes.toNat (offset + count))
          ≤ sb.numDataBlocks + blocksFor (ents i).numBytes.toNat)
      (fun _ => True) s := by
  set nb := (ents i).numBytes.toNat with hnb
  have h32 : inodeMaxBytes < 2 ^ 32 := by decide
  have hlast : (offset + count) % usizeSize = offset + count :=
    Nat.mod_eq_of_lt (by simp only [usizeSize]; omega)
  have hA : A.used = s.1.used sb := by rw [← h.2]; rfl
  simp only [inodeWrite, he, hlast]
  rw [if_pos ⟨hoff, hmax, Nat.le_add_right _ _⟩]
  simp only [wp_bind]
  refine wp_mono (E := fun _ => True) (wp_forChunks (fun total x t => ∃ B e a,
    (bitmapCache sb hl).At t.1 B ∧ Writing sb A ents i src offset total B e ∧
    x = { inode with entry := e } ∧ WriteTrace sb s.1.blocks offset total e t a)
    ⟨A, ents i, ∅, h, writing_zero ho hm hoff, by rw [← he], writeTrace_zero rfl hs⟩ ?_) ?_
    fun _ _ => trivial
  · rintro total htotal x t ⟨B, e, a, ht, hw, rfl, htr⟩
    refine wp_mono (wp_and (wp_writeChunk_traced hl hheld ht hw rfl htotal hmax)
      (traced_writeChunk hl hheld ht hw rfl htotal hmax)) ?_ fun _ _ => trivial
    rintro x u ⟨⟨C, e', hu, hw', rfl⟩, b, hchunk⟩
    have hmaps := hw.maps
    rw [view_of_at ht] at hmaps hchunk
    exact ⟨C, e', a ∪ b, hu, hw', rfl,
      htr.pass hmaps (chunk_pos (by omega)) (chunk_add_le _ _) hchunk⟩
  · rintro x t ⟨B, e, a, ht, hw, rfl, htr⟩
    have hnum : e.numBytes.toNat = nb := by rw [hw.entry]
    have hcard : B.used.card ≤ sb.numDataBlocks := by
      rw [← hl.card_dataBlocks]
      exact Finset.card_le_card fun n hn => SuperBlock.mem_dataBlocks.mpr (ht.inData hn)
    have hfree : B.used.card + blocksFor nb = A.used.card + blocksFor (max nb (offset + count)) :=
      hw.card
    have hcost := fun {l} => card_writeTrace (l := l) h.1 ht hw.owns hw.maps hpos hmax
      (hl.inInodes_toBlockNo hi).2 htr.takes (by rw [← hA]; exact hfree)
    rw [← hA, view_of_at ht, ← htr.synced] at hcost
    dsimp only
    rw [hnum]
    by_cases hgrow : 0 < count ∧ nb < offset + count
    · -- the inode block is synced, too
      rw [if_pos hgrow]
      simp only [inodeSync, hvalid, hno, Bool.and_self, if_true, wp_bind, withBitmap_toBlockOps]
      refine traced_acquire ⟨rfl, rfl⟩ fun u hu => traced_data hu ?_
      refine traced_store hu fun u hu => traced_sync hu fun u hu => ?_
      rw [wp_pure]
      refine traced_release hu fun u hu => ?_
      rw [wp_pure, wp_pure]
      refine ⟨rfl, hcost ?_, by omega⟩
      rw [hu.2, List.toFinset_append, if_pos hgrow.2]
      rfl
    · rw [if_neg hgrow, wp_pure]
      refine ⟨rfl, hcost ?_, by omega⟩
      rw [if_neg fun hlt => hgrow ⟨hpos, hlt⟩, Finset.union_empty]

end Write

end OsLab
