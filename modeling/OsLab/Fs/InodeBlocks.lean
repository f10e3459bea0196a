/-
The blocks of inodes.

An inode has a slot for each file block and one for the indirect block;
`blockOf e v k` is the block in slot `k` of entry `e` when `v` is the content of
the disk.  `slots` are the slots of all inodes, which own the used data blocks
(`Owns`), and `Maps e v c` says that the file blocks `0 … c - 1` are mapped.

* `wp_inodeMap_mapped`, `wp_inodeMap_fresh` — `inode_map` of a mapped file block and
  of the first one that is not.
-/
import OsLab.Fs.MapCache
import OsLab.Lib.Ownership
import Mathlib.Data.Finset.Card

namespace OsLab

/-- The slot of the indirect block, after those of the file blocks. -/
abbrev indirectSlot : ℕ := inodeMaxBlocks

/-- The block in slot `k` of an inode, 0 when there is none. -/
def blockOf (e : InodeEntry) (v : ℕ → BlockData) (k : ℕ) : ℕ :=
  if k < inodeNumDirect then (e.addr k).toNat
  else if k < inodeMaxBlocks then
    if e.indirect = 0 then 0 else ((v e.indirect.toNat).addr (k - inodeNumDirect)).toNat
  else if k = indirectSlot then e.indirect.toNat else 0

/-- The slots of all inodes. -/
def slots (ents : ℕ → InodeEntry) (v : ℕ → BlockData) (x : ℕ × ℕ) : ℕ := blockOf (ents x.1) v x.2

/-- The file blocks `0 … c - 1` of the inode are mapped, and there is an indirect
block exactly when they are more than the direct ones. -/
structure Maps (e : InodeEntry) (v : ℕ → BlockData) (c : ℕ) : Prop where
  le : c ≤ inodeMaxBlocks
  block : ∀ k < inodeMaxBlocks, blockOf e v k ≠ 0 ↔ k < c
  indirect : e.indirect ≠ 0 ↔ inodeNumDirect < c

/-- How many blocks an inode with `c` file blocks owns. -/
def slotCount (c : ℕ) : ℕ := c + if inodeNumDirect < c then 1 else 0

section Slots

variable {e : InodeEntry} {v v' : ℕ → BlockData} {k l i : ℕ} {ents : ℕ → InodeEntry}

theorem toNat_eq_zero {x : UInt32} : x.toNat = 0 ↔ x = 0 := by
  rw [← UInt32.toNat_inj]
  rfl

theorem blockOf_indirectSlot : blockOf e v indirectSlot = e.indirect.toNat := by
  simp [blockOf]

theorem blockOf_direct (hk : k < inodeNumDirect) : blockOf e v k = (e.addr k).toNat := if_pos hk

theorem blockOf_indirect (hk : k < inodeNumIndirect) (he : e.indirect ≠ 0) :
    blockOf e v (inodeNumDirect + k) = ((v e.indirect.toNat).addr k).toNat := by
  rw [blockOf, if_neg (by omega), if_pos (by simp only [inodeMaxBlocks]; omega), if_neg he,
    Nat.add_sub_cancel_left]

/-- The blocks of an inode depend on the content of its indirect block only. -/
theorem blockOf_congr (h : e.indirect ≠ 0 → v' e.indirect.toNat = v e.indirect.toNat) (k : ℕ) :
    blockOf e v' k = blockOf e v k := by
  by_cases he : e.indirect = 0
  · simp only [blockOf, if_pos he]
  · simp only [blockOf, h he]

theorem blockOf_setAddr (hk : k < inodeNumDirect) (n : UInt32) (l : ℕ) :
    blockOf (e.setAddr k n) v l = if l = k then n.toNat else blockOf e v l := by
  by_cases hl : l < inodeNumDirect
  · rw [blockOf_direct hl, blockOf_direct hl, e.addr_setAddr hk]
    split <;> rfl
  · have hlk : l ≠ k := by omega
    rw [if_neg hlk, blockOf, blockOf, if_neg hl, if_neg hl]
    rfl

/-- A new indirect block is empty. -/
theorem blockOf_setIndirect {n : UInt32} (he : e.indirect = 0) (hv : v n.toNat = .fill 0)
    (l : ℕ) : blockOf { e with indirect := n } v l
      = if l = indirectSlot then n.toNat else blockOf e v l := by
  by_cases hl : l < inodeNumDirect
  · have hls : l ≠ indirectSlot := by
      simp only [indirectSlot, inodeMaxBlocks]
      omega
    rw [if_neg hls, blockOf_direct hl, blockOf_direct hl]
    rfl
  · by_cases hlm : l < inodeMaxBlocks
    · have hls : l ≠ indirectSlot := by
        simp only [indirectSlot]
        omega
      have hadd : l - inodeNumDirect < inodeNumIndirect := by
        simp only [inodeMaxBlocks] at hlm
        omega
      rw [if_neg hls, blockOf, blockOf, if_neg hl, if_neg hl, if_pos hlm, if_pos hlm, if_pos he]
      split
      · rfl
      · simp only [hv, BlockData.addr_fill_zero hadd]
        rfl
    · rw [blockOf, blockOf, if_neg hl, if_neg hl, if_neg hlm, if_neg hlm]
      by_cases hls : l = indirectSlot
      · simp [hls]
      · simp [hls]

/-- Storing a number in the indirect block. -/
theorem blockOf_storeAddr (he : e.indirect ≠ 0) (hk : k < inodeNumIndirect) (n : UInt32) (l : ℕ) :
    blockOf e (Function.update v e.indirect.toNat ((v e.indirect.toNat).setAddr k n)) l
      = if l = inodeNumDirect + k then n.toNat else blockOf e v l := by
  by_cases hl : l < inodeNumDirect
  · rw [if_neg (by omega), blockOf_direct hl, blockOf_direct hl]
  · by_cases hlm : l < inodeMaxBlocks
    · have hadd : l - inodeNumDirect < inodeNumIndirect := by
        simp only [inodeMaxBlocks] at hlm
        omega
      have hiff : l - inodeNumDirect = k ↔ l = inodeNumDirect + k := by omega
      rw [blockOf, blockOf, if_neg hl, if_neg hl, if_pos hlm, if_pos hlm, if_neg he, if_neg he,
        Function.update_self, BlockData.addr_setAddr _ hadd]
      simp only [hiff]
      split <;> rfl
    · have hne : l ≠ inodeNumDirect + k := by
        simp only [inodeMaxBlocks] at hlm
        omega
      rw [if_neg hne, blockOf, blockOf, if_neg hl, if_neg hl, if_neg hlm, if_neg hlm]

/-- One more file block is mapped, and the indirect block did not change. -/
theorem Maps.succ {e' : InodeEntry} {c n : ℕ} (hm : Maps e v c) (hn : n ≠ 0)
    (hc : c < inodeMaxBlocks) (hown : ∀ l, blockOf e' v' l = if l = c then n else blockOf e v l)
    (hind : c ≠ inodeNumDirect) (hsame : e'.indirect = e.indirect) : Maps e' v' (c + 1) := by
  refine ⟨hc, fun k hk => ?_, ?_⟩
  · rw [hown]
    by_cases hkc : k = c
    · simp [hkc, hn]
    · rw [if_neg hkc, hm.block k hk]
      omega
  · rw [hsame, hm.indirect]
    omega

theorem slots_update (e : InodeEntry) (x : ℕ × ℕ) :
    slots (Function.update ents i e) v x
      = if x.1 = i then blockOf e v x.2 else slots ents v x := by
  by_cases hx : x.1 = i
  · simp [slots, hx]
  · simp [slots, hx]

variable {used : Finset ℕ}

/-- The indirect block of an inode is in use. -/
theorem indirect_mem (ho : Owns (slots ents v) used) (he : (ents i).indirect ≠ 0) :
    (ents i).indirect.toNat ∈ used := by
  have hslot : slots ents v (i, indirectSlot) = (ents i).indirect.toNat := blockOf_indirectSlot
  rw [← hslot]
  refine ho.mem_used ?_
  rw [hslot]
  exact fun h => he (toNat_eq_zero.mp h)

/-- Two inodes have different indirect blocks. -/
theorem indirect_ne (ho : Owns (slots ents v) used) (hk : k ≠ i) (he : (ents k).indirect ≠ 0) :
    (ents k).indirect.toNat ≠ (ents i).indirect.toNat := by
  have hslot : ∀ j, slots ents v (j, indirectSlot) = (ents j).indirect.toNat := fun j =>
    blockOf_indirectSlot
  rw [← hslot k, ← hslot i]
  refine ho.ne (fun h => hk (Prod.mk.inj h).1) ?_
  rw [hslot]
  exact fun h => he (toNat_eq_zero.mp h)

/-- No slot changes when the content of the used blocks does not. -/
theorem slots_congr (ho : Owns (slots ents v) used) (h : ∀ n ∈ used, v' n = v n) (x : ℕ × ℕ) :
    slots ents v' x = slots ents v x :=
  blockOf_congr (fun he => h _ (indirect_mem ho he)) x.2

end Slots

namespace MapState

/-- Acquiring and releasing a block leaves no trace. -/
theorem acquire_release {A : MapState} {n : ℕ} (hn : n ∉ A.held) :
    ({ A with held := (insert n A.held).erase n } : MapState) = A := by
  rw [Finset.erase_insert hn]

end MapState

namespace MapCache

variable {sb : SuperBlock} {σ : Type} {M : MapCache sb σ} {s : σ} {A B C : MapState}
  {E : Fault → Prop} {ctx : Option ℕ} {n i c offset : ℕ} {inode : Inode} {ents : ℕ → InodeEntry}

/-- `inode_map` of a mapped file block. -/
theorem wp_inodeMap_mapped {Q : ℕ × Inode → σ → Prop} (h : M.At s A) (hheld : A.held = ∅)
    (ho : Owns (slots ents A.view) A.used) (he : inode.entry = ents i)
    (hm : Maps (ents i) A.view c) (hlt : offset / blockSize < c)
    (hQ : ∀ t, M.At t A → Q (blockOf (ents i) A.view (offset / blockSize), inode) t) :
    wp (inodeMap M.cache ctx inode offset) Q E s := by
  have hle := hm.le
  have hmax : inodeMaxBlocks = inodeNumDirect + inodeNumIndirect := rfl
  have h32 : inodeMaxBlocks < 2 ^ 32 := by decide
  set k := offset / blockSize with hk
  have hmod : k % 2 ^ 32 = k := Nat.mod_eq_of_lt (by omega)
  have hmapped : blockOf (ents i) A.view k ≠ 0 := (hm.block k (by omega)).mpr hlt
  simp only [inodeMap, ← hk, hmod]
  by_cases hdirect : k < inodeNumDirect
  · rw [blockOf_direct hdirect] at hmapped hQ
    have haddr : (ents i).addr k ≠ 0 := fun h0 => hmapped (toNat_eq_zero.mpr h0)
    rw [if_pos hdirect, he, if_neg haddr, wp_pure]
    exact hQ s h
  · have hsub : k - inodeNumDirect < inodeNumIndirect := by omega
    have hind : (ents i).indirect ≠ 0 := hm.indirect.mpr (by omega)
    have hadd : inodeNumDirect + (k - inodeNumDirect) = k := by omega
    have hblock := blockOf_indirect (v := A.view) hsub hind
    rw [hadd] at hblock
    have haddr : (A.view (ents i).indirect.toNat).addr (k - inodeNumDirect) ≠ 0 := by
      intro h0
      rw [hblock, h0] at hmapped
      exact hmapped rfl
    have hmem := indirect_mem ho hind
    have hnot : (ents i).indirect.toNat ∉ A.held := by simp [hheld]
    rw [if_neg hdirect, if_pos hsub, he, if_neg hind, mapIndirect, he]
    simp only [wp_bind]
    refine wp_acquire h (.inr hmem) hnot fun t ht => ?_
    refine wp_data ht (Finset.mem_insert_self _ _) ?_
    rw [if_neg haddr]
    simp only [wp_bind, wp_pure]
    refine wp_sync ht (Finset.mem_insert_self _ _) fun t ht => ?_
    refine wp_release ht (Finset.mem_insert_self _ _) fun t ht => ?_
    rw [MapState.acquire_release hnot] at ht
    rw [← hblock]
    exact hQ t ht

/-- What `inode_map` does when it maps file block `c` of inode `i`, the first one
that is not mapped. -/
structure Grows (sb : SuperBlock) (A : MapState) (ents : ℕ → InodeEntry) (i c : ℕ) (B : MapState)
    (e : InodeEntry) : Prop where
  owns : Owns (slots (Function.update ents i e) B.view) B.used
  maps : Maps e B.view (c + 1)
  /-- the new block is empty -/
  zero : B.view (blockOf e B.view c) = .fill 0
  keep : ∀ k < c, blockOf e B.view k = blockOf (ents i) A.view k
  held : B.held = A.held
  mono : A.used ⊆ B.used
  card : B.used.card + slotCount c = A.used.card + slotCount (c + 1)
  /-- of the blocks that existed only the indirect block changes -/
  view : ∀ n, A.Access sb n → ((ents i).indirect ≠ 0 → n ≠ (ents i).indirect.toNat) →
    B.view n = A.view n
  entry : e = { ents i with addrs := e.addrs, indirect := e.indirect }

/-- An allocation changes no slot. -/
theorem slots_allocs (ho : Owns (slots ents A.view) A.used) (h : A.Allocs sb n B) (x : ℕ × ℕ) :
    slots ents B.view x = slots ents A.view x :=
  slots_congr ho (fun k hk => h.view k (.inr hk)) x

/-- The block that was allocated is put into an empty slot of inode `i`. -/
theorem owns_assign {e : InodeEntry} {v : ℕ → BlockData} {k : ℕ} (hl : sb.Layout)
    (ho : Owns (slots ents A.view) A.used) (ha : A.Allocs sb n B)
    (hempty : blockOf (ents i) A.view k = 0)
    (hown : ∀ l, blockOf e v l = if l = k then n else blockOf (ents i) A.view l)
    (hother : ∀ j l, j ≠ i → blockOf (ents j) v l = blockOf (ents j) A.view l) :
    Owns (slots (Function.update ents i e) v) B.used := by
  rw [ha.used]
  refine (ho.assign (k := (i, k)) hempty ha.fresh
    (Nat.ne_of_gt (hl.pos_of_inData ha.inData))).congr fun x => ?_
  obtain ⟨j, l⟩ := x
  rw [slots_update]
  by_cases hj : j = i
  · subst hj
    rw [if_pos rfl, hown]
    by_cases hlk : l = k
    · rw [if_pos hlk, hlk, Function.update_self]
    · rw [if_neg hlk, Function.update_of_ne fun h => hlk (Prod.mk.inj h).2]
      rfl
  · rw [if_neg hj, Function.update_of_ne fun h => hj (Prod.mk.inj h).1]
    exact hother j l hj

/-- The first unmapped file block is a direct one. -/
private theorem wp_map_direct {Q : ℕ → σ → Prop} (hl : sb.Layout) (h : M.At s A)
    (ho : Owns (slots ents A.view) A.used) (hm : Maps (ents i) A.view c)
    (hc : c < inodeNumDirect) (hE : ∀ e, A.used.card = sb.numDataBlocks → E e)
    (hQ : ∀ n t B, M.At t B → sb.InData n →
      Grows sb A ents i c B ((ents i).setAddr c (.ofNat n)) → Q n t) :
    wp (M.cache.alloc ctx) Q E s := by
  have hmax : inodeMaxBlocks = inodeNumDirect + inodeNumIndirect := rfl
  refine wp_alloc h (fun e hfull => hE e (h.card_used_of_full hl hfull)) fun n B t ht ha => ?_
  have hn : n ≠ 0 := Nat.ne_of_gt (hl.pos_of_inData ha.inData)
  have hnat := hl.toNat_ofNat ha.inData
  have hempty : blockOf (ents i) A.view c = 0 := by
    by_contra hne
    exact Nat.lt_irrefl _ ((hm.block c (by omega)).mp hne)
  have hslots := slots_allocs ho ha
  have hown : ∀ l, blockOf ((ents i).setAddr c (.ofNat n)) B.view l
      = if l = c then n else blockOf (ents i) A.view l := by
    intro l
    rw [blockOf_setAddr hc, hnat]
    split
    · rfl
    · exact hslots (i, l)
  refine hQ n t B ht ha.inData
    { owns := owns_assign hl ho ha hempty hown fun j l _ => hslots (j, l)
      maps := hm.succ hn (by omega) hown (by omega) rfl, zero := ?_
      keep := fun k hk => by rw [hown, if_neg (by omega)]
      held := ha.held, mono := ha.used ▸ Finset.subset_insert _ _, card := ?_
      view := fun k hk _ => ha.view k hk, entry := rfl }
  · rw [hown, if_pos rfl]
    exact ha.zero
  · rw [ha.used, Finset.card_insert_of_notMem ha.fresh, slotCount, slotCount, if_neg (by omega),
      if_neg (by omega)]
    omega

/-- Number `n` of a block just allocated is stored in slot `c` of the indirect block
of inode `i`. -/
structure Assigns (sb : SuperBlock) (A : MapState) (ents : ℕ → InodeEntry) (i c n : ℕ)
    (B : MapState) : Prop where
  inData : sb.InData n
  fresh : n ∉ A.used
  owns : Owns (slots ents B.view) B.used
  block : ∀ l, blockOf (ents i) B.view l = if l = c then n else blockOf (ents i) A.view l
  used : B.used = insert n A.used
  held : B.held = A.held
  zero : B.view n = .fill 0
  view : ∀ k, A.Access sb k → k ≠ (ents i).indirect.toNat → B.view k = A.view k

/-- `inode_map` with an indirect block, when the file block is not mapped. -/
private theorem wp_mapIndirect {Q : ℕ × Inode → σ → Prop} {op : ℕ} (hl : sb.Layout)
    (h : M.At s A) (hheld : A.held = ∅) (ho : Owns (slots ents A.view) A.used)
    (he : inode.entry = ents i) (hind : (ents i).indirect ≠ 0) (hc : c < inodeNumIndirect)
    (hempty : blockOf (ents i) A.view (inodeNumDirect + c) = 0)
    (hE : ∀ e, A.used.card = sb.numDataBlocks → E e)
    (hQ : ∀ n t B, M.At t B → Assigns sb A ents i (inodeNumDirect + c) n B → Q (n, inode) t) :
    wp (mapIndirect M.cache (some op) inode c) Q E s := by
  set ind := (ents i).indirect.toNat with hindeq
  have hmem : ind ∈ A.used := indirect_mem ho hind
  have hnot : ind ∉ A.held := by simp [hheld]
  have haddr : (A.view ind).addr c = 0 := by
    rw [blockOf_indirect hc hind, toNat_eq_zero] at hempty
    exact hempty
  rw [mapIndirect, he]
  simp only [wp_bind]
  refine wp_acquire h (.inr hmem) hnot fun t ht => wp_data ht (Finset.mem_insert_self _ _) ?_
  rw [if_pos haddr, if_neg (by simp)]
  simp only [wp_bind]
  refine wp_alloc ht (fun e hfull => hE e (h.card_used_of_full hl hfull)) fun n B t ht ha => ?_
  have hindB : ind ∈ B.held := ha.held ▸ Finset.mem_insert_self _ _
  refine wp_store ht hindB fun t ht => wp_sync ht hindB fun t ht => wp_release ht hindB fun t ht => ?_
  have hnat := hl.toNat_ofNat ha.inData
  rw [wp_pure, hnat]
  have hsame : B.view ind = A.view ind := ha.view ind (.inr hmem)
  have hne : n ≠ ind := by
    rintro rfl
    exact ha.fresh hmem
  -- the slots of the other inodes are in other indirect blocks
  have hother : ∀ j l, j ≠ i → blockOf (ents j)
      (Function.update B.view ind ((A.view ind).setAddr c (.ofNat n))) l
      = blockOf (ents j) A.view l := by
    intro j l hj
    refine blockOf_congr (fun hjind => ?_) l
    rw [Function.update_of_ne (indirect_ne ho hj hjind)]
    exact ha.view _ (.inr (indirect_mem ho hjind))
  have hown : ∀ l, blockOf (ents i)
      (Function.update B.view ind ((A.view ind).setAddr c (.ofNat n))) l
      = if l = inodeNumDirect + c then n else blockOf (ents i) A.view l := by
    intro l
    rw [← hsame, blockOf_storeAddr hind hc, hnat]
    split
    · rfl
    · exact blockOf_congr (fun _ => hsame) l
  refine hQ n t _ ht
    { inData := ha.inData, fresh := ha.fresh, block := hown, used := ha.used, zero := ?_
      owns := ?_, held := ?_, view := fun k hk hkind => ?_ }
  · have howns := owns_assign (A := { A with held := insert ind A.held }) hl ho ha hempty hown
      hother
    rwa [Function.update_eq_self] at howns
  · show B.held.erase ind = A.held
    rw [ha.held, Finset.erase_insert hnot]
  · show Function.update B.view ind _ n = _
    rw [Function.update_of_ne hne, ha.zero]
  · show Function.update B.view ind _ k = _
    rw [Function.update_of_ne hkind]
    exact ha.view k hk

/-- **`inode_map`** of the first file block that is not mapped.  It fails only when
fewer blocks are free than it needs. -/
theorem wp_inodeMap_fresh {Q : ℕ × Inode → σ → Prop} {op : ℕ} (hl : sb.Layout) (h : M.At s A)
    (hheld : A.held = ∅) (ho : Owns (slots ents A.view) A.used) (he : inode.entry = ents i)
    (hm : Maps (ents i) A.view c) (hc : c < inodeMaxBlocks) (hoff : offset / blockSize = c)
    (hE : ∀ e, sb.numDataBlocks + slotCount c < A.used.card + slotCount (c + 1) → E e)
    (hQ : ∀ e t B, M.At t B → Grows sb A ents i c B e →
      Q (blockOf e B.view c, { inode with entry := e }) t) :
    wp (inodeMap M.cache (some op) inode offset) Q E s := by
  have hmax : inodeMaxBlocks = inodeNumDirect + inodeNumIndirect := rfl
  have h32 : inodeMaxBlocks < 2 ^ 32 := by decide
  have hmod : c % 2 ^ 32 = c := Nat.mod_eq_of_lt (by omega)
  have hempty : ∀ k, c ≤ k → k < inodeMaxBlocks → blockOf (ents i) A.view k = 0 := by
    intro k hk hkm
    by_contra hne
    have := (hm.block k hkm).mp hne
    omega
  simp only [inodeMap, hoff, hmod]
  by_cases hdirect : c < inodeNumDirect
  · have haddr : (ents i).addr c = 0 := by
      rw [← toNat_eq_zero, ← blockOf_direct (v := A.view) hdirect]
      exact hempty c (Nat.le_refl _) hc
    rw [if_pos hdirect, he, if_pos haddr, if_neg (by simp), wp_bind]
    refine wp_map_direct hl h ho hm hdirect (fun e hfull => hE e ?_) fun n t B ht hn hg => ?_
    · rw [slotCount, slotCount]
      split <;> split <;> omega
    · have hblock : blockOf ((ents i).setAddr c (.ofNat n)) B.view c = (UInt32.ofNat n).toNat := by
        rw [blockOf_setAddr hdirect, if_pos rfl]
      rw [wp_pure, ← hblock]
      exact hQ _ t B ht hg
  · obtain ⟨k, rfl⟩ : ∃ k, c = inodeNumDirect + k := ⟨c - inodeNumDirect, by omega⟩
    have hk : k < inodeNumIndirect := by omega
    rw [if_neg hdirect, Nat.add_sub_cancel_left, if_pos hk, he]
    by_cases hind : (ents i).indirect = 0
    · -- the indirect block is allocated first, so `k` is 0
      have hk0 : k = 0 := by
        by_contra hne
        exact hm.indirect.mpr (by omega) hind
      subst hk0
      rw [if_pos hind, if_neg (by simp), wp_bind]
      refine wp_alloc h (fun e hfull => hE e ?_) fun ind B₁ t₁ ht₁ ha => ?_
      · have := h.card_used_of_full hl hfull
        rw [slotCount, slotCount]
        split <;> split <;> omega
      have hnat := hl.toNat_ofNat ha.inData
      have hne0 : ind ≠ 0 := Nat.ne_of_gt (hl.pos_of_inData ha.inData)
      set e₁ : InodeEntry := { ents i with indirect := .ofNat ind } with he₁
      have hslots := slots_allocs ho ha
      have hown : ∀ l, blockOf e₁ B₁.view l
          = if l = indirectSlot then ind else blockOf (ents i) A.view l := by
        intro l
        rw [he₁, blockOf_setIndirect hind (by rw [hnat]; exact ha.zero), hnat]
        split
        · rfl
        · exact hslots (i, l)
      have ho₁ : Owns (slots (Function.update ents i e₁) B₁.view) B₁.used := by
        refine owns_assign hl ho ha ?_ hown fun j l _ => hslots (j, l)
        rw [blockOf_indirectSlot, toNat_eq_zero]
        exact hind
      have hself : (Function.update ents i e₁) i = e₁ := Function.update_self _ _ _
      have hind₁ : e₁.indirect ≠ 0 := by
        intro h0
        exact hne0 (hnat.symm.trans (toNat_eq_zero.mpr h0))
      have hentry : ({ inode with entry := e₁ } : Inode).entry = Function.update ents i e₁ i :=
        hself.symm
      refine wp_mapIndirect hl ht₁ (ha.held.trans hheld) ho₁ hentry
        (hself.symm ▸ hind₁) hk ?_ (fun e hfull => hE e ?_) fun n t B ht hg => ?_
      · rw [hself, hown, if_neg (by simp only [indirectSlot, hmax]; omega)]
        exact hempty _ (Nat.le_refl _) hc
      · have h12 : slotCount (inodeNumDirect + 0) = 12 := rfl
        have h13 : slotCount (inodeNumDirect + 0 + 1) = 14 := rfl
        rw [ha.used, Finset.card_insert_of_notMem ha.fresh] at hfull
        omega
      · have hblock : ∀ l, blockOf e₁ B.view l = if l = inodeNumDirect + 0 then n
            else if l = indirectSlot then ind else blockOf (ents i) A.view l := by
          intro l
          have hl' := hg.block l
          rwa [hself, hown] at hl'
        have hn : n ≠ 0 := Nat.ne_of_gt (hl.pos_of_inData hg.inData)
        have hval : blockOf e₁ B.view (inodeNumDirect + 0) = n := by rw [hblock, if_pos rfl]
        rw [← hval]
        refine hQ e₁ t B ht
          { owns := hg.owns, maps := ⟨hc, fun k hkm => ?_, iff_of_true hind₁ (by decide)⟩
            zero := by rw [hval]; exact hg.zero, keep := fun k hkc => ?_
            held := hg.held.trans ha.held
            mono := fun x hx => by
              rw [hg.used, ha.used]
              exact Finset.mem_insert_of_mem (Finset.mem_insert_of_mem hx)
            card := ?_, view := fun x hx _ => ?_, entry := rfl }
        · rw [hblock]
          by_cases hk0 : k = inodeNumDirect + 0
          · rw [if_pos hk0]
            exact iff_of_true hn (by omega)
          · rw [if_neg hk0, if_neg (by simp only [indirectSlot]; omega), hm.block k hkm]
            omega
        · rw [hblock, if_neg (by omega), if_neg (by simp only [indirectSlot, hmax]; omega)]
        · have h12 : slotCount (inodeNumDirect + 0) = 12 := rfl
          have h13 : slotCount (inodeNumDirect + 0 + 1) = 14 := rfl
          rw [hg.used, Finset.card_insert_of_notMem hg.fresh, ha.used,
            Finset.card_insert_of_notMem ha.fresh]
          omega
        · have hxind : x ≠ ind := by
            rintro rfl
            exact hx.elim (hl.not_inInodes ha.inData) ha.fresh
          have hx₁ : B₁.Access sb x := hx.imp id fun hxu => by
            rw [ha.used]
            exact Finset.mem_insert_of_mem hxu
          rw [hg.view x hx₁ (by rw [hself, he₁, hnat]; exact hxind), ha.view x hx]
    · have hlt : inodeNumDirect < inodeNumDirect + k := hm.indirect.mp hind
      have hgrow : slotCount (inodeNumDirect + k + 1) = slotCount (inodeNumDirect + k) + 1 := by
        rw [slotCount, slotCount, if_pos hlt, if_pos (by omega)]
      rw [if_neg hind]
      refine wp_mapIndirect hl h hheld ho he hind hk (hempty _ (Nat.le_refl _) hc)
        (fun e hfull => hE e (by omega)) fun n t B ht hg => ?_
      have hn : n ≠ 0 := Nat.ne_of_gt (hl.pos_of_inData hg.inData)
      have hval : blockOf (ents i) B.view (inodeNumDirect + k) = n := by rw [hg.block, if_pos rfl]
      have hinode : ({ inode with entry := ents i } : Inode) = inode := by rw [← he]
      have hQ' := hQ (ents i) t B ht
        { owns := by rw [Function.update_eq_self]; exact hg.owns
          maps := hm.succ hn hc hg.block (by omega) rfl
          zero := by rw [hval]; exact hg.zero
          keep := fun k hkc => by rw [hg.block, if_neg (by omega)]
          held := hg.held
          mono := hg.used ▸ Finset.subset_insert _ _
          card := by rw [hg.used, Finset.card_insert_of_notMem hg.fresh]; omega
          view := fun x hx hxind => hg.view x hx (hxind hind)
          entry := rfl }
      rwa [hval, hinode] at hQ'

end MapCache
end OsLab
