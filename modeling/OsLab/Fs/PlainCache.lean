/-
The block store below the inode layer.

`plainOps` is a map of blocks with the list of the blocks that are synced in an operation;
it serves the blocks outside the log area only, as the block cache does.  With the bitmap
it is a block cache that behaves as a map (`plainCache`), so what is proved of the inode
layer over such a cache holds over it.
-/
import OsLab.Fs.BitmapAlloc

namespace OsLab

/-- The blocks that the cache serves its clients. -/
def SuperBlock.Served (sb : SuperBlock) (n : ℕ) : Prop := ¬ sb.InLog n ∧ n < 2 ^ 64

instance (sb : SuperBlock) (n : ℕ) : Decidable (sb.Served n) :=
  inferInstanceAs (Decidable (_ ∧ _))

/-- A super block whose areas are in order: the log, the inodes, the bitmap, the data. -/
structure SuperBlock.Ordered (sb : SuperBlock) : Prop extends sb.Layout where
  log : sb.logStart + sb.numLogBlocks ≤ sb.inodeStart

theorem SuperBlock.ordered_mkfs : SuperBlock.mkfs.Ordered := ⟨SuperBlock.layout_mkfs, by decide⟩

/-- The block store that keeps the list of the blocks that are synced. -/
def plainOps (sb : SuperBlock) : BlockOps (StateT (BlockStore × List ℕ) (Except Fault)) :=
  { tracedOps with acquire := fun n => if sb.Served n then tracedOps.acquire n else throw .panic }

section Served

variable {sb : SuperBlock} {n k : ℕ}

/-- Everything from the inodes on is served. -/
theorem SuperBlock.Ordered.served (h : sb.Ordered) (hn : sb.inodeStart ≤ n)
    (hlt : n < sb.numBlocks) : sb.Served n := by
  have := h.log
  have := h.numBlocks
  exact ⟨fun hlog => absurd hlog.2 (by omega), by omega⟩

theorem SuperBlock.Ordered.inodeStart_lt (h : sb.Ordered) : sb.inodeStart < sb.bitmapStart :=
  Nat.lt_of_le_of_lt (Nat.le_add_right _ _) h.inodes

theorem SuperBlock.Ordered.dataStart_le (_ : sb.Ordered) : sb.dataStart ≤ sb.numBlocks :=
  Nat.sub_le _ _

theorem SuperBlock.Ordered.served_data (h : sb.Ordered) (hn : sb.InData n) : sb.Served n := by
  have := h.inodeStart_lt
  have := h.toLayout.bitmapStart_lt hn
  exact h.served (by omega) hn.2

theorem SuperBlock.Ordered.served_bitmap (h : sb.Ordered) (hk : k ≤ sb.numBlocks / bitPerBlock) :
    sb.Served (sb.bitmapStart + k) := by
  have := h.inodeStart_lt
  have := h.dataStart_le
  have := h.bitmap
  exact h.served (by omega) (by omega)

theorem SuperBlock.Ordered.served_inodes (h : sb.Ordered) (hn : sb.InInodes n) : sb.Served n := by
  have := h.dataStart_le
  have := h.bitmap
  have := hn.2
  have := Nat.zero_le (sb.numBlocks / bitPerBlock)
  exact h.served hn.1 (by omega)

end Served

section Plain

variable {sb : SuperBlock} {s : BlockStore × List ℕ} {ctx : Option ℕ} {n b : ℕ} {E : Fault → Prop}

theorem plain_acquire (h : sb.Served n) : (plainOps sb).acquire n = tracedOps.acquire n := if_pos h

theorem wp_traced_acquire_iff {Q : ℕ → BlockStore × List ℕ → Prop} :
    wp (tracedOps.acquire n) Q E s ↔ if n ∈ s.1.held then E .blocked
      else Q n ({ s.1 with held := insert n s.1.held }, s.2) := by
  refine wp_besideTrace.trans ?_
  simp only [mapOps, wp_bind, wp_get]
  split <;> rfl

theorem wp_traced_data_iff {Q : BlockData → BlockStore × List ℕ → Prop} :
    wp (tracedOps.data b) Q E s ↔ Q (s.1.blocks b) s := Iff.rfl

theorem wp_traced_store_iff {Q : Unit → BlockStore × List ℕ → Prop} {d : BlockData} :
    wp (tracedOps.store b d) Q E s
      ↔ Q () ({ s.1 with blocks := Function.update s.1.blocks b d }, s.2) := Iff.rfl

theorem wp_traced_release_iff {Q : Unit → BlockStore × List ℕ → Prop} :
    wp (tracedOps.release b) Q E s ↔ Q () ({ s.1 with held := s.1.held.erase b }, s.2) :=
  Iff.rfl

theorem wp_traced_sync_iff {Q : Unit → BlockStore × List ℕ → Prop} :
    wp (tracedOps.sync ctx b) Q E s ↔ Q () (s.1, s.2 ++ logSynced ctx [b]) := by
  cases ctx with
  | none =>
    rw [logSynced, if_pos rfl, List.append_nil]
    rfl
  | some op => rfl

/-- The loop of `cache_alloc`: it acquires blocks of the bitmap, and one that is not in use. -/
theorem wp_plain_allocFrom {Q : ℕ → BlockStore × List ℕ → Prop} (ho : sb.Ordered) {ks : List ℕ}
    (hks : ∀ k ∈ ks, k ≤ sb.numBlocks / bitPerBlock)
    (hbits : ∀ m < sb.dataStart, bitOf sb s.1.blocks m = true)
    (h : wp (cacheAllocFrom sb tracedOps ctx ks) Q E s) :
    wp (cacheAllocFrom sb (plainOps sb) ctx ks) Q E s := by
  induction ks generalizing s with
  | nil => exact h
  | cons k ks ih =>
    have hk := hks k List.mem_cons_self
    rw [cacheAllocFrom, wp_bind] at h ⊢
    rw [plain_acquire (ho.served_bitmap hk)]
    rw [wp_traced_acquire_iff] at h ⊢
    by_cases hheld : sb.bitmapStart + k ∈ s.1.held
    · rwa [if_pos hheld] at h ⊢
    · rw [if_neg hheld, wp_bind, wp_traced_data_iff] at h
      rw [if_neg hheld, wp_bind]
      refine wp_traced_data_iff.mpr ?_
      dsimp only at h ⊢
      cases hfree : firstFree sb (s.1.blocks (sb.bitmapStart + k)) (k * bitPerBlock) with
      | none =>
        simp only [hfree, wp_bind, wp_traced_release_iff] at h
        rw [wp_bind]
        refine wp_traced_release_iff.mpr ?_
        exact ih (fun j hj => hks j (List.mem_cons_of_mem k hj)) hbits h
      | some i =>
        -- the block that is taken has a clear bit, so it is a data block
        obtain ⟨hi, hlt, hbit⟩ := firstFree_eq_some hfree
        have hdata : sb.InData (k * bitPerBlock + i) := by
          refine ⟨?_, by omega⟩
          by_contra hmeta
          have hset := hbits (k * bitPerBlock + i) (by omega)
          rw [BlockStore.bitOf_eq hi, hbit] at hset
          cases hset
        have hserved := plain_acquire (ho.served_data hdata)
        simp only [hfree, wp_bind] at h
        simp only [wp_bind, hserved]
        exact h

/-- What a program does to the blocks, `plainOps` does next to the list. -/
theorem wp_plain_alloc {Q : ℕ → BlockStore → Prop} (ho : sb.Ordered) (hok : s.1.Ok sb)
    (h : wp ((mapOps.withBitmap sb).alloc ctx) Q E s.1) :
    wp (((plainOps sb).withBitmap sb).alloc ctx) (fun n t => Q n t.1) E s := by
  refine wp_plain_allocFrom ho (fun k hk => ?_) hok.bits ?_
  · have := List.mem_range.mp hk
    omega
  · rw [← interp_alloc mapOps] at h
    have htraced := wp_traced h s.2
    rwa [interp_alloc tracedOps] at htraced

theorem wp_plain_free {Q : Unit → BlockStore → Prop} (ho : sb.Ordered) (hn : n < sb.numBlocks)
    (h : wp ((mapOps.withBitmap sb).free ctx n) Q E s.1) :
    wp (((plainOps sb).withBitmap sb).free ctx n) (fun a t => Q a t.1) E s := by
  rw [← interp_free mapOps] at h
  have htraced := wp_traced h s.2
  rw [interp_free tracedOps] at htraced
  have hserved : sb.Served (sb.bitmapStart + n / bitPerBlock) :=
    ho.served_bitmap (Nat.div_le_div_right (Nat.le_of_lt hn))
  show wp (cacheFree sb (plainOps sb) ctx n) _ E s
  rw [cacheFree, plain_acquire hserved]
  exact htraced

end Plain

/-- **A block cache that behaves as a map**, next to the list of what is synced. -/
def plainCache (sb : SuperBlock) (ho : sb.Ordered) : MapCache sb (BlockStore × List ℕ) where
  cache := (plainOps sb).withBitmap sb
  Ok s := s.1.Ok sb
  abs s := s.1.abs sb
  used_inData s n hok hn := (bitmapCache sb ho.toLayout).used_inData s.1 n hok hn
  held_access s n hok hn := (bitmapCache sb ho.toLayout).held_access s.1 n hok hn
  acquire s n hok ha hn := by
    have hserved : sb.Served n := by
      rcases ha with hi | hu
      · exact ho.served_inodes hi
      · exact ho.served_data ((bitmapCache sb ho.toLayout).used_inData s.1 n hok hu)
    show wp ((plainOps sb).acquire n) _ _ s
    rw [plain_acquire hserved]
    exact wp_besideTrace.mpr ((bitmapCache sb ho.toLayout).acquire s.1 n hok ha hn)
  data s b hok hb := wp_traced_data_iff.mpr ⟨rfl, rfl⟩
  store s b d hok hb := by
    have h := (bitmapCache sb ho.toLayout).store s.1 b d hok hb
    exact wp_traced_store_iff.mpr h
  sync s ctx b hok _ := wp_traced_sync_iff.mpr ⟨hok, rfl⟩
  release s b hok hb := by
    have h := (bitmapCache sb ho.toLayout).release s.1 b hok hb
    exact wp_traced_release_iff.mpr h
  alloc s ctx hok := wp_plain_alloc ho hok ((bitmapCache sb ho.toLayout).alloc s.1 ctx hok)
  free s ctx n hok hn hheld := by
    have hdata := (bitmapCache sb ho.toLayout).used_inData s.1 n hok hn
    exact wp_plain_free ho hdata.2 ((bitmapCache sb ho.toLayout).free s.1 ctx n hok hn hheld)

end OsLab
