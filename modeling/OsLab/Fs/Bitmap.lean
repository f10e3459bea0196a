/-
The bitmap allocator.

Over a store that is a map of blocks, `cache_alloc` and `cache_free` are a correct
allocator (`bitmapCache`): the data blocks in use are those whose bit is set.  So what
is proved over every `MapCache` holds over the bitmap.

* `blocks_accounted` — in every state reached from an empty file system the bits of
  the data area are those of the blocks of the inodes in use, which have exactly the
  blocks of their bytes.
-/
import OsLab.Fs.FileSystem
import OsLab.Lib.System

namespace OsLab

/-- The blocks, and those that are held. -/
structure BlockStore where
  blocks : ℕ → BlockData
  held : Finset ℕ

/-- A block cache that is a map of blocks. -/
def mapOps : BlockOps (StateT BlockStore (Except Fault)) where
  acquire n := do
    if n ∈ (← get).held then throw .blocked
    else
      modify fun s => { s with held := insert n s.held }
      return n
  data b := do return (← get).blocks b
  store b d := modify fun s => { s with blocks := Function.update s.blocks b d }
  sync _ _ := pure ()
  release b := modify fun s => { s with held := s.held.erase b }

/-- The bit of block `n` in the bitmap. -/
def bitOf (sb : SuperBlock) (blocks : ℕ → BlockData) (n : ℕ) : Bool :=
  (blocks (sb.bitmapStart + n / bitPerBlock)).bit (n % bitPerBlock)

namespace BlockStore

variable {sb : SuperBlock} {s : BlockStore} {n m b : ℕ} {d : BlockData} {ctx : Option ℕ}
  {E : Fault → Prop}

/-- The data blocks whose bit is set. -/
def used (sb : SuperBlock) (s : BlockStore) : Finset ℕ :=
  sb.dataBlocks.filter fun n => bitOf sb s.blocks n = true

/-- The store as a map of blocks. -/
def abs (sb : SuperBlock) (s : BlockStore) : MapState := ⟨s.blocks, s.held, s.used sb⟩

/-- The blocks before the data area are marked as used, and only inode blocks and data
blocks in use are held. -/
structure Ok (sb : SuperBlock) (s : BlockStore) : Prop where
  bits : ∀ n < sb.dataStart, bitOf sb s.blocks n = true
  held : ∀ n ∈ s.held, (s.abs sb).Access sb n

theorem mem_used : n ∈ s.used sb ↔ sb.InData n ∧ bitOf sb s.blocks n = true := by
  rw [used, Finset.mem_filter, SuperBlock.mem_dataBlocks]

/-! ### The store -/

theorem wp_acquire {Q : ℕ → BlockStore → Prop} (hn : n ∉ s.held)
    (hQ : Q n { s with held := insert n s.held }) : wp (mapOps.acquire n) Q E s := by
  simp only [mapOps, wp_bind, wp_get]
  rw [if_neg hn]
  exact hQ

theorem wp_data {Q : BlockData → BlockStore → Prop} (hQ : Q (s.blocks b) s) :
    wp (mapOps.data b) Q E s := hQ

theorem wp_store {Q : Unit → BlockStore → Prop}
    (hQ : Q () { s with blocks := Function.update s.blocks b d }) :
    wp (mapOps.store b d) Q E s := hQ

theorem wp_sync {Q : Unit → BlockStore → Prop} (hQ : Q () s) : wp (mapOps.sync ctx b) Q E s := hQ

theorem wp_release {Q : Unit → BlockStore → Prop} (hQ : Q () { s with held := s.held.erase b }) :
    wp (mapOps.release b) Q E s := hQ

/-! ### The bitmap -/

/-- The block that has the bit of block `n` is before the data area. -/
theorem bitmapBlock_lt (hl : sb.Layout) (hn : n < sb.numBlocks) :
    sb.bitmapStart + n / bitPerBlock < sb.dataStart := by
  have hdiv : n / bitPerBlock ≤ sb.numBlocks / bitPerBlock :=
    Nat.div_le_div_right (Nat.le_of_lt hn)
  have := hl.bitmap
  omega

/-- A block behind the inode blocks and before the data area is not accessible. -/
theorem not_access (h : sb.bitmapStart ≤ n) (hn : n < sb.dataStart) :
    ¬ (s.abs sb).Access sb n := by
  rintro (hi | hu)
  · exact absurd hi.2 (by omega)
  · exact absurd (mem_used.mp hu).1.1 (by omega)

/-- A data block that is not in use is not accessible. -/
theorem not_access_of_fresh (hl : sb.Layout) (hn : sb.InData n)
    (hbit : bitOf sb s.blocks n = false) : ¬ (s.abs sb).Access sb n := by
  rintro (hi | hu)
  · exact hl.not_inInodes hn hi
  · rw [(mem_used.mp hu).2] at hbit
    cases hbit

/-- Changing a data block changes no bit. -/
theorem bitOf_update_data {v : ℕ → BlockData} (hl : sb.Layout) (hn : sb.dataStart ≤ n)
    (hm : m < sb.numBlocks) : bitOf sb (Function.update v n d) m = bitOf sb v m := by
  have hne : sb.bitmapStart + m / bitPerBlock ≠ n := by
    have := bitmapBlock_lt hl hm
    omega
  rw [bitOf, Function.update_of_ne hne, bitOf]

/-- Changing one bit of a bitmap block. -/
theorem bitOf_update_bit {v : ℕ → BlockData} {k i : ℕ} (f : Bool → Bool) (hi : i < bitPerBlock)
    (hd : ∀ j < bitPerBlock, d.bit j = if j = i then f ((v (sb.bitmapStart + k)).bit j)
      else (v (sb.bitmapStart + k)).bit j) (m : ℕ) :
    bitOf sb (Function.update v (sb.bitmapStart + k) d) m
      = if m = k * bitPerBlock + i then f (bitOf sb v m) else bitOf sb v m := by
  rw [bitOf, bitOf]
  by_cases hk : m / bitPerBlock = k
  · have hiff : m % bitPerBlock = i ↔ m = k * bitPerBlock + i := by
      have hsum := Nat.div_add_mod m bitPerBlock
      rw [hk] at hsum
      rw [Nat.mul_comm k]
      omega
    rw [hk, Function.update_self, hd _ (Nat.mod_lt _ (by decide))]
    simp only [hiff]
  · have hmk : m ≠ k * bitPerBlock + i := by
      rintro rfl
      apply hk
      rw [Nat.mul_comm, Nat.mul_add_div (by decide), Nat.div_eq_of_lt hi, Nat.add_zero]
    rw [if_neg hmk, Function.update_of_ne (by omega)]

/-- Setting the bit of block `n`. -/
theorem bitOf_setBit (v : ℕ → BlockData) (n m : ℕ) :
    bitOf sb (Function.update v (sb.bitmapStart + n / bitPerBlock)
      ((v (sb.bitmapStart + n / bitPerBlock)).setBit (n % bitPerBlock))) m
      = if m = n then true else bitOf sb v m := by
  have hd : ∀ j < bitPerBlock,
      ((v (sb.bitmapStart + n / bitPerBlock)).setBit (n % bitPerBlock)).bit j
      = if j = n % bitPerBlock
        then (fun _ => true) ((v (sb.bitmapStart + n / bitPerBlock)).bit j)
        else (v (sb.bitmapStart + n / bitPerBlock)).bit j := by
    intro j hj
    rw [BlockData.bit_setBit _ hj]
    by_cases hji : j = n % bitPerBlock <;> simp [hji]
  have hset := bitOf_update_bit (fun _ => true) (Nat.mod_lt n (by decide)) hd m
  rwa [Nat.div_add_mod'] at hset

/-- Clearing the bit of block `n`. -/
theorem bitOf_clearBit (v : ℕ → BlockData) (n m : ℕ) :
    bitOf sb (Function.update v (sb.bitmapStart + n / bitPerBlock)
      ((v (sb.bitmapStart + n / bitPerBlock)).clearBit (n % bitPerBlock))) m
      = if m = n then false else bitOf sb v m := by
  have hd : ∀ j < bitPerBlock,
      ((v (sb.bitmapStart + n / bitPerBlock)).clearBit (n % bitPerBlock)).bit j
      = if j = n % bitPerBlock
        then (fun _ => false) ((v (sb.bitmapStart + n / bitPerBlock)).bit j)
        else (v (sb.bitmapStart + n / bitPerBlock)).bit j := by
    intro j hj
    rw [BlockData.bit_clearBit _ hj]
    by_cases hji : j = n % bitPerBlock <;> simp [hji]
  have hclear := bitOf_update_bit (fun _ => false) (Nat.mod_lt n (by decide)) hd m
  rwa [Nat.div_add_mod'] at hclear

/-- The quotient and the rest of a number written as a bit of bitmap block `k`. -/
theorem div_mod_bit {k i : ℕ} (hi : i < bitPerBlock) :
    (k * bitPerBlock + i) / bitPerBlock = k ∧ (k * bitPerBlock + i) % bitPerBlock = i := by
  constructor
  · rw [Nat.mul_comm, Nat.mul_add_div (by decide), Nat.div_eq_of_lt hi, Nat.add_zero]
  · rw [Nat.mul_comm, Nat.mul_add_mod, Nat.mod_eq_of_lt hi]

/-- The number of a bit. -/
theorem bitOf_eq {v : ℕ → BlockData} {k i : ℕ} (hi : i < bitPerBlock) :
    bitOf sb v (k * bitPerBlock + i) = (v (sb.bitmapStart + k)).bit i := by
  obtain ⟨hdiv, hmod⟩ := div_mod_bit (k := k) hi
  rw [bitOf, hdiv, hmod]

/-- The bits after `cache_alloc` has taken block `n`. -/
theorem bitOf_alloc {v : ℕ → BlockData} {k i : ℕ} (hl : sb.Layout) (hi : i < bitPerBlock)
    (hn : n = k * bitPerBlock + i) (hstart : sb.dataStart ≤ n) (hm : m < sb.numBlocks) :
    bitOf sb (Function.update (Function.update v (sb.bitmapStart + k)
      ((v (sb.bitmapStart + k)).setBit i)) n d) m = if m = n then true else bitOf sb v m := by
  obtain ⟨hdiv, hmod⟩ := div_mod_bit (k := k) hi
  have hset : bitOf sb _ m = _ := bitOf_setBit v n m
  rw [bitOf_update_data hl hstart hm]
  rwa [hn, hdiv, hmod, ← hn] at hset

/-- The state after `cache_alloc` has taken block `n`. -/
private theorem allocs {k i : ℕ} (hl : sb.Layout) (hok : s.Ok sb) (hi : i < bitPerBlock)
    (hn : n = k * bitPerBlock + i) (hlt : n < sb.numBlocks)
    (hbit : (s.blocks (sb.bitmapStart + k)).bit i = false) :
    let t : BlockStore := ⟨Function.update (Function.update s.blocks (sb.bitmapStart + k)
      ((s.blocks (sb.bitmapStart + k)).setBit i)) n (.fill 0), s.held⟩
    t.Ok sb ∧ (s.abs sb).Allocs sb n (t.abs sb) := by
  intro t
  have hbitn : bitOf sb s.blocks n = false := by rw [hn, bitOf_eq hi, hbit]
  have hstart : sb.dataStart ≤ n := by
    by_contra hlt'
    rw [hok.bits n (by omega)] at hbitn
    cases hbitn
  have hdata : sb.InData n := ⟨hstart, hlt⟩
  have hle : sb.dataStart ≤ sb.numBlocks := Nat.sub_le _ _
  have hbits : ∀ m < sb.numBlocks, bitOf sb t.blocks m
      = if m = n then true else bitOf sb s.blocks m := fun m hm => bitOf_alloc hl hi hn hstart hm
  have hused : t.used sb = insert n (s.used sb) := by
    ext m
    rw [Finset.mem_insert, mem_used, mem_used]
    constructor
    · rintro ⟨hm, hbit⟩
      rw [hbits m hm.2] at hbit
      by_cases hmn : m = n
      · exact .inl hmn
      · rw [if_neg hmn] at hbit
        exact .inr ⟨hm, hbit⟩
    · rintro (rfl | ⟨hm, hbit⟩)
      · exact ⟨hdata, by rw [hbits m hlt, if_pos rfl]⟩
      · refine ⟨hm, ?_⟩
        rw [hbits m hm.2]
        split
        · rfl
        · exact hbit
  have hmono : ∀ m, (s.abs sb).Access sb m → (t.abs sb).Access sb m := fun m hm =>
    hm.imp id fun hu => by
      show m ∈ t.used sb
      rw [hused]
      exact Finset.mem_insert_of_mem hu
  have hblock : sb.bitmapStart + k < sb.dataStart := by
    have := bitmapBlock_lt hl hlt
    rwa [hn, (div_mod_bit hi).1] at this
  refine ⟨⟨fun m hm => ?_, fun m hm => hmono m (hok.held m hm)⟩,
    { inData := hdata, fresh := fun hu => ?_, used := hused, held := rfl
      zero := Function.update_self _ _ _, view := fun m hm => ?_ }⟩
  · rw [hbits m (Nat.lt_of_lt_of_le hm hle)]
    split
    · rfl
    · exact hok.bits m hm
  · rw [(mem_used.mp hu).2] at hbitn
    cases hbitn
  · have hmn : m ≠ n := by
      rintro rfl
      exact not_access_of_fresh hl hdata hbitn hm
    have hmb : m ≠ sb.bitmapStart + k := by
      rintro rfl
      exact not_access (Nat.le_add_right _ _) hblock hm
    show Function.update (Function.update s.blocks _ _) n _ m = s.blocks m
    rw [Function.update_of_ne hmn, Function.update_of_ne hmb]

/-- The state after `cache_free` of block `n`. -/
private theorem frees (hl : sb.Layout) (hok : s.Ok sb) (hn : n ∈ s.used sb) (hheld : n ∉ s.held) :
    let t : BlockStore := ⟨Function.update s.blocks (sb.bitmapStart + n / bitPerBlock)
      ((s.blocks (sb.bitmapStart + n / bitPerBlock)).clearBit (n % bitPerBlock)), s.held⟩
    t.Ok sb ∧ (s.abs sb).Frees sb n (t.abs sb) := by
  intro t
  obtain ⟨hdata, -⟩ := mem_used.mp hn
  have hle : sb.dataStart ≤ sb.numBlocks := Nat.sub_le _ _
  have hbits : ∀ m, bitOf sb t.blocks m = if m = n then false else bitOf sb s.blocks m :=
    bitOf_clearBit s.blocks n
  have hused : t.used sb = (s.used sb).erase n := by
    ext m
    rw [Finset.mem_erase, mem_used, mem_used, hbits]
    by_cases hmn : m = n
    · simp [hmn]
    · simp [hmn]
  have hblock := bitmapBlock_lt hl hdata.2
  refine ⟨⟨fun m hm => ?_, fun m hm => (hok.held m hm).imp id fun hu => ?_⟩, hused, rfl,
    fun m _ hm => ?_⟩
  · have hmn : m ≠ n := by
      rintro rfl
      exact absurd hdata.1 (by omega)
    rw [hbits, if_neg hmn]
    exact hok.bits m hm
  · show m ∈ t.used sb
    rw [hused, Finset.mem_erase]
    refine ⟨?_, hu⟩
    rintro rfl
    exact hheld hm
  · refine Function.update_of_ne ?_ _ _
    rintro rfl
    exact not_access (Nat.le_add_right _ _) hblock hm

/-- Nobody holds a bitmap block. -/
private theorem bitmapBlock_notMem {k : ℕ} (hl : sb.Layout) (hok : s.Ok sb)
    (hk : k ≤ sb.numBlocks / bitPerBlock) : sb.bitmapStart + k ∉ s.held := by
  have := hl.bitmap
  exact fun h => not_access (Nat.le_add_right _ _) (by omega) (hok.held _ h)

/-- The loop of `cache_alloc`. -/
private theorem wp_cacheAllocFrom {Q : ℕ → BlockStore → Prop} {ks : List ℕ} (hl : sb.Layout)
    (hok : s.Ok sb) (hks : ∀ k ∈ ks, k ≤ sb.numBlocks / bitPerBlock)
    (hE : ∀ e, (∀ k ∈ ks, ∀ i < bitPerBlock, i + k * bitPerBlock < sb.numBlocks →
      (s.blocks (sb.bitmapStart + k)).bit i = true) → E e)
    (hQ : ∀ n t, t.Ok sb → (s.abs sb).Allocs sb n (t.abs sb) → Q n t) :
    wp (cacheAllocFrom sb mapOps ctx ks) Q E s := by
  induction ks with
  | nil =>
    exact hE .panic fun k hk => absurd hk List.not_mem_nil
  | cons k ks ih =>
    have hnot := bitmapBlock_notMem hl hok (hks k List.mem_cons_self)
    rw [cacheAllocFrom]
    simp only [wp_bind]
    refine wp_acquire hnot (wp_data ?_)
    cases hfree : firstFree sb (s.blocks (sb.bitmapStart + k)) (k * bitPerBlock) with
    | none =>
      simp only [wp_bind]
      refine wp_release ?_
      dsimp only
      rw [Finset.erase_insert hnot]
      refine ih (fun j hj => hks j (List.mem_cons_of_mem k hj)) fun e hfull => hE e ?_
      intro j hj i hi hlt
      rcases List.mem_cons.mp hj with rfl | hj
      · exact firstFree_eq_none hfree hi hlt
      · exact hfull j hj i hi hlt
    | some i =>
      obtain ⟨hi, hlt, hbit⟩ := firstFree_eq_some hfree
      rw [Nat.add_comm] at hlt
      obtain ⟨hokt, hal⟩ := allocs hl hok hi rfl hlt hbit
      have hheld : k * bitPerBlock + i ∉ s.held := fun hh =>
        not_access_of_fresh hl hal.inData (by rw [bitOf_eq hi]; exact hbit) (hok.held _ hh)
      simp only [wp_bind, wp_pure]
      refine wp_store (wp_sync (wp_release ?_))
      dsimp only
      rw [Finset.erase_insert hnot]
      refine wp_acquire hheld (wp_store (wp_sync (wp_release ?_)))
      dsimp only
      rw [Finset.erase_insert hheld]
      exact hQ _ _ hokt hal

/-- **`cache_alloc`** takes a data block that is not in use, or panics when there is none. -/
theorem wp_cacheAlloc (hl : sb.Layout) (hok : s.Ok sb) :
    wp (cacheAlloc sb mapOps ctx) (fun n t => t.Ok sb ∧ (s.abs sb).Allocs sb n (t.abs sb))
      (fun _ => ∀ n, sb.InData n → n ∈ (s.abs sb).used) s := by
  refine wp_cacheAllocFrom hl hok (fun k hk => ?_) (fun e hfull n hn => mem_used.mpr ⟨hn, ?_⟩)
    fun n t hok hal => ⟨hok, hal⟩
  · have := List.mem_range.mp hk
    omega
  · have hdiv : n / bitPerBlock ≤ sb.numBlocks / bitPerBlock :=
      Nat.div_le_div_right (Nat.le_of_lt hn.2)
    have hsum : n % bitPerBlock + n / bitPerBlock * bitPerBlock = n := by
      rw [Nat.mul_comm]
      exact Nat.mod_add_div n bitPerBlock
    exact hfull (n / bitPerBlock) (List.mem_range.mpr (by omega)) (n % bitPerBlock)
      (Nat.mod_lt _ (by decide)) (by rw [hsum]; exact hn.2)

/-- **`cache_free`** frees a data block in use. -/
theorem wp_cacheFree (hl : sb.Layout) (hok : s.Ok sb) (hn : n ∈ s.used sb) (hheld : n ∉ s.held) :
    wp (cacheFree sb mapOps ctx n) (fun _ t => t.Ok sb ∧ (s.abs sb).Frees sb n (t.abs sb)) E s := by
  have hlt := (mem_used.mp hn).1.2
  have hnot := bitmapBlock_notMem hl hok (Nat.div_le_div_right (Nat.le_of_lt hlt))
  simp only [cacheFree, wp_bind]
  refine wp_acquire hnot (wp_data (wp_store (wp_sync (wp_release ?_))))
  dsimp only
  rw [Finset.erase_insert hnot]
  exact frees hl hok hn hheld

/-- Storing into a block that is held changes no bit. -/
private theorem bitOf_store (hl : sb.Layout) (hok : s.Ok sb) (hb : b ∈ s.held)
    (hm : m < sb.numBlocks) : bitOf sb (Function.update s.blocks b d) m = bitOf sb s.blocks m := by
  have hne : sb.bitmapStart + m / bitPerBlock ≠ b := by
    rintro rfl
    exact not_access (Nat.le_add_right _ _) (bitmapBlock_lt hl hm) (hok.held _ hb)
  rw [bitOf, Function.update_of_ne hne, bitOf]

private theorem used_store (hl : sb.Layout) (hok : s.Ok sb) (hb : b ∈ s.held) :
    used sb { s with blocks := Function.update s.blocks b d } = used sb s := by
  ext m
  rw [mem_used, mem_used]
  refine and_congr_right fun hm => ?_
  rw [bitOf_store hl hok hb hm.2]

end BlockStore

open BlockStore in
/-- **The bitmap is a correct allocator.** -/
def bitmapCache (sb : SuperBlock) (hl : sb.Layout) : MapCache sb BlockStore where
  cache := mapOps.withBitmap sb
  Ok := BlockStore.Ok sb
  abs := BlockStore.abs sb
  used_inData _ _ _ hn := (mem_used.mp hn).1
  held_access s n hok hn := hok.held n hn
  acquire s n hok ha hn := by
    refine wp_acquire hn ⟨rfl, ⟨hok.bits, fun m hm => ?_⟩, rfl⟩
    rcases Finset.mem_insert.mp hm with rfl | hm
    · exact ha
    · exact hok.held m hm
  data s b _ _ := wp_data ⟨rfl, rfl⟩
  store s b d hok hb := by
    have hused := used_store (d := d) hl hok hb
    have hle : sb.dataStart ≤ sb.numBlocks := Nat.sub_le _ _
    refine wp_store ⟨⟨fun m hm => ?_, fun m hm => (hok.held m hm).imp id fun hu => ?_⟩, ?_⟩
    · rw [bitOf_store hl hok hb (Nat.lt_of_lt_of_le hm hle)]
      exact hok.bits m hm
    · show m ∈ used sb _
      rw [hused]
      exact hu
    · rw [BlockStore.abs, hused]
      rfl
  sync s ctx b hok _ := wp_sync ⟨hok, rfl⟩
  release s b hok hb := wp_release ⟨⟨hok.bits, fun m hm => hok.held m (Finset.mem_of_mem_erase hm)⟩, rfl⟩
  alloc s ctx hok := wp_cacheAlloc hl hok
  free s ctx n hok hn hheld := wp_cacheFree hl hok hn hheld

/-- The cache of a disk that `mkfs` has laid out. -/
abbrev mkfsCache : MapCache .mkfs BlockStore := bitmapCache .mkfs SuperBlock.layout_mkfs

/-- A disk with one data block. -/
def SuperBlock.tiny : SuperBlock where
  numBlocks := 5
  numDataBlocks := 1
  numInodes := 3
  numLogBlocks := 1
  logStart := 1
  inodeStart := 2
  bitmapStart := 3

/-- The file system over the bitmap. -/
def fsSystem (sb : SuperBlock) : System (FsState BlockStore) FsCall where
  init s := (∀ n < sb.numBlocks, bitOf sb s.store.blocks n = decide (n < sb.dataStart)) ∧
    s.store.held = ∅ ∧ (∀ i, s.inodes i = none) ∧
    ∀ i, InUse sb s.store.blocks i → (diskEntry sb s.store.blocks i).numBytes = 0 ∧
      (diskEntry sb s.store.blocks i).indirect = 0 ∧
      ∀ k, (diskEntry sb s.store.blocks i).addr k = 0
  step s l :=
    match (fsCall sb (mapOps.withBitmap sb) l).run s with
    | .ok (_, t) => some t
    | .error _ => none

/-- What the callers have to respect. -/
def FsState.AllowedAt (sb : SuperBlock) (s : FsState BlockStore) (l : FsCall) : Prop :=
  l.Allowed s (files sb s.store.blocks)

instance (sb : SuperBlock) (s : FsState BlockStore) (l : FsCall) : Decidable (s.AllowedAt sb l) :=
  inferInstanceAs (Decidable (l.Allowed s _))

namespace FsState

variable {sb : SuperBlock} {s t : FsState BlockStore} {l : FsCall} {i j n : ℕ}

theorem empty_of_init (hl : sb.Layout) (h : (fsSystem sb).init s) :
    (bitmapCache sb hl).Empty s := by
  obtain ⟨hbits, hheld, hinodes, hblank⟩ := h
  have hle : sb.dataStart ≤ sb.numBlocks := Nat.sub_le _ _
  refine ⟨⟨fun m hm => ?_, fun m hm => ?_⟩, hheld, ?_, hinodes, hblank⟩
  · rw [hbits m (Nat.lt_of_lt_of_le hm hle), decide_eq_true hm]
  · rw [hheld] at hm
    exact absurd hm (Finset.notMem_empty m)
  · refine Finset.eq_empty_of_forall_notMem fun m hm => ?_
    obtain ⟨hdata, hbit⟩ := BlockStore.mem_used.mp hm
    rw [hbits m hdata.2, decide_eq_true_eq] at hbit
    exact absurd hdata.1 (by omega)

/-- The bitmap of a disk whose data blocks are all free. -/
def blankBlocks (sb : SuperBlock) (n : ℕ) : BlockData :=
  if sb.bitmapStart ≤ n ∧ n < sb.dataStart then fun j =>
    .ofNat (2 ^ min 8 (sb.dataStart - ((n - sb.bitmapStart) * bitPerBlock + 8 * j)) - 1)
  else .fill 0

/-- A file system without inodes. -/
def blank (sb : SuperBlock) : FsState BlockStore := ⟨⟨blankBlocks sb, ∅⟩, fun _ => none⟩

theorem init_blank_of {sb : SuperBlock}
    (hbits : ∀ n < sb.numBlocks, bitOf sb (blankBlocks sb) n = decide (n < sb.dataStart))
    (htypes : ∀ i < sb.numInodes, (diskEntry sb (blankBlocks sb) i).type = inodeInvalid) :
    (fsSystem sb).init (blank sb) :=
  ⟨hbits, rfl, fun _ => rfl, fun i hi => absurd (htypes i hi.2.1) hi.2.2⟩

theorem init_blank : (fsSystem .mkfs).init (blank .mkfs) :=
  init_blank_of (by decide +kernel) (by decide +kernel)

theorem inv_step (hl : sb.Layout) (h : ∃ A, (bitmapCache sb hl).FsInv s A)
    (hallow : s.AllowedAt sb l) (hs : (fsSystem sb).step s l = some t) :
    ∃ A, (bitmapCache sb hl).FsInv t A := by
  obtain ⟨A, hA⟩ := h
  have hview : A.view = s.store.blocks := by rw [← hA.abs_eq]; rfl
  simp only [fsSystem] at hs
  split at hs
  · rename_i r u hrun
    cases hs
    have hdone := wp_run (MapCache.wp_fsCall hl hA (by rw [hview]; exact hallow)) hrun
    obtain ⟨B, hB, -⟩ := hdone
    exact ⟨B, hB⟩
  · cases hs

theorem inv_of_reachable (hl : sb.Layout) (h : (fsSystem sb).Reachable (FsState.AllowedAt sb) s) :
    ∃ A, (bitmapCache sb hl).FsInv s A :=
  h.induction (fun _ h => ⟨_, (empty_of_init hl h).inv⟩)
    fun _ _ _ hi hallow hs => inv_step hl hi hallow hs

/-- Block `n` is one of the blocks of inode `i`: a file block or the indirect block. -/
def Has (sb : SuperBlock) (s : FsState BlockStore) (i n : ℕ) : Prop :=
  ∃ k, blockOf (diskEntry sb s.store.blocks i) s.store.blocks k = n

/-- The blocks of the data area are accounted for by the inodes in use. -/
structure Accounted (sb : SuperBlock) (s : FsState BlockStore) : Prop where
  /-- the entries in memory are those on the disk -/
  loaded : ∀ i inode, s.inodes i = some inode →
    InUse sb s.store.blocks i ∧ inode.entry = diskEntry sb s.store.blocks i
  marked : ∀ i n, InUse sb s.store.blocks i → Has sb s i n → n ≠ 0 →
    n < sb.numBlocks ∧ bitOf sb s.store.blocks n = true
  distinct : ∀ i j k l, InUse sb s.store.blocks i → InUse sb s.store.blocks j →
    blockOf (diskEntry sb s.store.blocks i) s.store.blocks k ≠ 0 →
    blockOf (diskEntry sb s.store.blocks i) s.store.blocks k
      = blockOf (diskEntry sb s.store.blocks j) s.store.blocks l → i = j ∧ k = l
  mapped : ∀ i, InUse sb s.store.blocks i → Maps (diskEntry sb s.store.blocks i) s.store.blocks
    (fileBlocks (diskEntry sb s.store.blocks i).numBytes.toNat)
  owned : ∀ n, sb.InData n → bitOf sb s.store.blocks n = true →
    ∃! i, InUse sb s.store.blocks i ∧ Has sb s i n
  alloc : ∀ ctx type i t, (inodeAlloc sb (mapOps.withBitmap sb) ctx type).run s.store = .ok (i, t) →
    ¬ InUse sb s.store.blocks i ∧ s.inodes i = none

theorem accounted_of_inv {A : MapState} (hl : sb.Layout) (h : (bitmapCache sb hl).FsInv s A) :
    s.Accounted sb := by
  obtain rfl : s.store.abs sb = A := h.abs_eq
  have hlive : ∀ i, InUse sb s.store.blocks i →
      liveEntry sb s.store.blocks i = diskEntry sb s.store.blocks i := fun i hi =>
    liveEntry_of_inUse hi
  have hslot : ∀ i k, InUse sb s.store.blocks i →
      slots (liveEntry sb s.store.blocks) s.store.blocks (i, k)
        = blockOf (diskEntry sb s.store.blocks i) s.store.blocks k := fun i k hi => by
    rw [slots, hlive i hi]
  have howns : Owns (slots (liveEntry sb s.store.blocks) s.store.blocks) (s.store.used sb) :=
    h.consistent.owns
  have hinj := howns.inj
  refine ⟨fun i inode hi => ?_, ?_, ?_, fun i hi => ?_, fun n hn hbit => ?_, ?_⟩
  · have hlo := h.loaded i inode hi
    exact ⟨hlo.inUse, hlo.entry⟩
  · rintro i n hi ⟨k, rfl⟩ hne
    rw [← hslot i k hi] at hne ⊢
    obtain ⟨hdata, hbit⟩ := BlockStore.mem_used.mp (howns.mem_used hne)
    exact ⟨hdata.2, hbit⟩
  · intro i j k l hi hj hne heq
    rw [← hslot i k hi] at hne heq
    rw [← hslot j l hj] at heq
    exact Prod.mk.inj (hinj _ _ hne heq)
  · have hm := h.consistent.maps i
    exact hlive i hi ▸ hm
  · have hmem : n ∈ s.store.used sb := BlockStore.mem_used.mpr ⟨hn, hbit⟩
    obtain ⟨hn0, ⟨i, k⟩, hik⟩ := (howns.mem n).mp hmem
    have huse : InUse sb s.store.blocks i := by
      by_contra hno
      rw [slots, liveEntry, if_neg hno] at hik
      exact hn0 (hik.symm.trans (MapCache.blockOf_blank 0 _ _))
    refine ⟨i, ⟨huse, k, by rw [← hslot i k huse, hik]⟩, ?_⟩
    rintro j ⟨hj, l, hjl⟩
    rw [← hslot j l hj] at hjl
    have heq := hinj (j, l) (i, k) (by rwa [hjl]) (hjl.trans hik.symm)
    exact (Prod.mk.inj heq).1
  · intro ctx type i t hrun
    have hfree := wp_run (MapCache.wp_alloc_file (E := fun _ => True)
      (Q := fun i _ => ¬ InUse sb s.store.blocks i) hl h.store h.consistent (fun _ _ => trivial)
      fun i _ _ hno _ _ _ _ _ _ _ => hno) hrun
    refine ⟨hfree, ?_⟩
    cases hi : s.inodes i with
    | none => rfl
    | some inode => exact absurd (h.loaded i inode hi).inUse hfree

end FsState

/-- **The blocks are accounted for.**  In every state reached from an empty file system
each bit of the data area belongs to one inode in use, which has exactly the blocks of
its bytes, no block is in two places, and `inode_alloc` returns no number in use. -/
theorem blocks_accounted (sb : SuperBlock) (hl : sb.Layout) (s : FsState BlockStore)
    (h : (fsSystem sb).Reachable (FsState.AllowedAt sb) s) : s.Accounted sb := by
  obtain ⟨A, hA⟩ := FsState.inv_of_reachable hl h
  exact FsState.accounted_of_inv hl hA

/-- A file with 13 blocks and its indirect block. -/
theorem blocks_accounted_mkfs : ∃ s : FsState BlockStore,
    (s.store.used .mkfs).card = 14 ∧ s.Accounted .mkfs := by
  have hrun : ((fsSystem .mkfs).exec (FsState.AllowedAt .mkfs) (.blank .mkfs)
      [.alloc none 2, .get 1, .write 0 1 (List.replicate 6145 7) 0]).map
      (fun s => (s.store.used .mkfs).card) = some 14 := by
    decide +kernel
  obtain ⟨s, hs, hcard⟩ := Option.map_eq_some_iff.mp hrun
  exact ⟨s, hcard, blocks_accounted .mkfs SuperBlock.layout_mkfs s
    ⟨_, FsState.init_blank, System.leads_of_exec hs⟩⟩

/-- Two files over the bitmap. -/
theorem files_conform_mkfs : ∃ s : FsState BlockStore,
    (bitmapCache .mkfs SuperBlock.layout_mkfs).Empty s ∧
    (bitmapCache .mkfs SuperBlock.layout_mkfs).Conforms
      [.alloc none 2, .alloc none 2, .get 1, .get 2, .write 0 1 [7, 8, 9] 0, .write 0 2 [1] 0,
        .write 0 1 [5] 1, .read 1 1 5, .clear none 1, .read 2 0 1] s
      ((bitmapCache .mkfs SuperBlock.layout_mkfs).filesOf s) :=
  ⟨.blank .mkfs, FsState.empty_of_init SuperBlock.layout_mkfs FsState.init_blank,
    files_conform .mkfs SuperBlock.layout_mkfs BlockStore _ _
      (FsState.empty_of_init SuperBlock.layout_mkfs FsState.init_blank) _⟩

/-- How a call fails. -/
def failure {α : Type} : Except Fault α → Option Fault
  | .ok _ => none
  | .error e => some e

/-- `inode_read` with a count for which `count + offset` wraps around: the count is not
clipped to the size of the file, and `ASSERT(offset <= end)` fails. -/
theorem read_overflow_panics : ((fsSystem .mkfs).exec (FsState.AllowedAt .mkfs) (.blank .mkfs)
    [.alloc none 2, .get 1, .write 0 1 [7] 0]).map (fun s =>
      (files .mkfs s.store.blocks 1, (s.inodes 1).map fun inode => inode.entry.numBytes,
        failure ((fsCall .mkfs (mapOps.withBitmap .mkfs) (.read 1 1 (2 ^ 64 - 1))).run s)))
    = some (some [7], some 1, some .panic) := by
  decide +kernel

end OsLab
