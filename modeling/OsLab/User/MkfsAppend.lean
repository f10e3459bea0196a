/-
The loop of `iappend` (`user/mkfs/main.c`), and the write of `fs/inode.c`.

Over a block cache that takes the first free block, a pass of the loop is a pass of
`inode_write`, since the blocks behind `freeblock` are empty.  The last pass is that of a
write up to the end of the block, with zeros behind the bytes.

* `wp_appendPass` — one pass;
* `wp_appendLoop` — the loop writes the bytes, and fails only when there are no blocks.
-/
import OsLab.User.Mkfs
import OsLab.Fs.FirstFit

namespace OsLab

/-- A file ends in its last block. -/
theorem le_fileBlocks (n : ℕ) : n ≤ fileBlocks n * blockSize := by
  simp only [fileBlocks, blockSize]
  omega

/-- A file that fills its last block has as many blocks. -/
theorem fileBlocks_full (n : ℕ) : fileBlocks (fileBlocks n * blockSize) = fileBlocks n := by
  simp only [fileBlocks, blockSize]
  omega

namespace Mkfs

section Rules

variable {m : Image} {E : Stop → Prop}

/-- The image when a sector has been written. -/
def Image.write (m : Image) (sec : ℕ) (buf : BlockData) : Image :=
  { m with blocks := Function.update m.blocks sec buf }

/-- The image when the next block has been taken. -/
def Image.take (m : Image) : Image := { m with freeblock := m.freeblock + 1 }

theorem wp_assert {p : Prop} [Decidable p] {Q : Unit → Image → Prop} :
    wp (assert p) Q E m ↔ if p then Q () m else E .assertFails := by
  rw [assert]
  split <;> rfl

theorem wp_rsect {Q : BlockData → Image → Prop} {sec : ℕ} :
    wp (rsect sec) Q E m ↔ if sec < m.sectors then Q (m.blocks sec) m else E .perror := by
  simp only [rsect, wp_bind, wp_get]
  split <;> rfl

theorem wp_wsect {Q : Unit → Image → Prop} {sec : ℕ} {buf : BlockData} (h : sec < m.sectors) :
    wp (wsect sec buf) Q E m ↔ Q () (m.write sec buf) := by
  have hmax : max m.sectors (sec + 1) = m.sectors := by omega
  rw [wsect, wp_modify, hmax]
  rfl

theorem wp_nextBlock {Q : ℕ → Image → Prop} :
    wp nextBlock Q E m ↔ Q m.freeblock m.take := Iff.rfl

theorem wp_nextInode {Q : ℕ → Image → Prop} :
    wp nextInode Q E m ↔ Q m.freeinode { m with freeinode := m.freeinode + 1 } := Iff.rfl

end Rules

variable {sb : SuperBlock} {m t : Image} {E : Fault → Prop}

/-- The image as a map of blocks: the data blocks in front of `freeblock` are in use. -/
def Image.abs (sb : SuperBlock) (m : Image) (held : Finset ℕ) : MapState :=
  ⟨m.blocks, held, Finset.Ico sb.dataStart m.freeblock⟩

/-- The image has its length, and nothing has been written behind `freeblock`. -/
structure Image.Sane (sb : SuperBlock) (m : Image) : Prop where
  sectors : m.sectors = sb.numBlocks
  start : sb.dataStart ≤ m.freeblock
  le : m.freeblock ≤ sb.numBlocks
  blank : ∀ n, m.freeblock ≤ n → m.blocks n = .fill 0

namespace Image

theorem Sane.inData (h : m.Sane sb) {held : Finset ℕ} {n : ℕ} (hn : n ∈ (m.abs sb held).used) :
    sb.InData n :=
  ⟨(Finset.mem_Ico.mp hn).1, Nat.lt_of_lt_of_le (Finset.mem_Ico.mp hn).2 h.le⟩

theorem Sane.at (h : m.Sane sb) (hl : sb.Layout) : (firstFitCache sb hl).At (m.abs sb ∅)
    (m.abs sb ∅) :=
  ⟨⟨fun _ hn => h.inData hn, fun n hn => absurd hn (Finset.notMem_empty n)⟩, rfl⟩

theorem Sane.take (h : m.Sane sb) (hlt : m.freeblock < sb.numBlocks) : m.take.Sane sb :=
  ⟨h.sectors, Nat.le_succ_of_le h.start, hlt, fun n hn => h.blank n (Nat.le_of_succ_le hn)⟩

theorem Sane.write (h : m.Sane sb) {n : ℕ} (hn : n < m.freeblock) (d : BlockData) :
    (m.write n d).Sane sb := by
  refine ⟨h.sectors, h.start, h.le, fun k hk => ?_⟩
  have hne : k ≠ n := fun heq => absurd (heq ▸ hk : m.freeblock ≤ n) (by omega)
  exact (Function.update_of_ne hne _ _).trans (h.blank k hk)

/-- The allocator takes block `freeblock`, which is empty as it is. -/
theorem Sane.wp_alloc (h : m.Sane sb) {ctx : Option ℕ} {held : Finset ℕ}
    {Q : ℕ → MapState → Prop} : wp ((firstFit sb).alloc ctx) Q E (m.abs sb held) ↔
      if m.freeblock < sb.numBlocks then Q m.freeblock (m.take.abs sb held) else E .panic := by
  rw [wp_firstFit_alloc]
  show (firstUnused sb (Finset.Ico sb.dataStart m.freeblock)).elim (E .panic) (fun n =>
    Q n ⟨Function.update m.blocks n (.fill 0), held, insert n (m.abs sb held).used⟩) ↔ _
  rw [firstUnused_Ico h.start]
  by_cases hlt : m.freeblock < sb.numBlocks
  · have hblank : Function.update m.blocks m.freeblock (.fill 0) = m.blocks := by
      rw [← h.blank _ (Nat.le_refl _), Function.update_eq_self]
    have hused : insert m.freeblock (Finset.Ico sb.dataStart m.freeblock)
        = Finset.Ico sb.dataStart (m.freeblock + 1) := by
      ext n
      rw [Finset.mem_insert, Finset.mem_Ico, Finset.mem_Ico]
      have := h.start
      omega
    rw [if_pos hlt, if_pos hlt]
    show Q _ ⟨Function.update m.blocks m.freeblock (.fill 0), held, insert m.freeblock
      (Finset.Ico sb.dataStart m.freeblock)⟩ ↔ _
    rw [hblank, hused]
    rfl
  · rw [if_neg hlt, if_neg hlt, Option.elim_none]

end Image

/-! ### A pass of `iappend` -/

section Pass

variable {e : InodeEntry} {inode : Inode} {k off op : ℕ}

/-- The blocks of the entry are in use. -/
def OwnsBlocks (sb : SuperBlock) (m : Image) (e : InodeEntry) : Prop :=
  ∀ l, blockOf e m.blocks l ≠ 0 → blockOf e m.blocks l ∈ (m.abs sb ∅).used

/-- What the first part of a pass leaves when it has found or taken block `x`; before it the
block was `old`, and there was none when this is 0. -/
structure FindsBlock (sb : SuperBlock) (m : Image) (old x : ℕ) (t : Image) : Prop where
  sane : t.Sane sb
  freeinode : t.freeinode = m.freeinode
  inUse : x ∈ (t.abs sb ∅).used
  /-- a new block is empty -/
  data : t.blocks x = if old = 0 then .fill 0 else m.blocks old
  frame : ∀ n < sb.dataStart, t.blocks n = m.blocks n

namespace FindsBlock

variable {old x : ℕ}

theorem lt (h : FindsBlock sb m old x t) : x < sb.numBlocks := (h.sane.inData h.inUse).2

/-- A block that is mapped. -/
theorem mapped (hs : m.Sane sb) (hx : x ∈ (m.abs sb ∅).used) (hne : x ≠ 0) :
    FindsBlock sb m x x m :=
  ⟨hs, rfl, hx, by rw [if_neg hne], fun _ _ => rfl⟩

/-- The next block is taken. -/
theorem fresh (hs : m.Sane sb) (hlt : m.freeblock < sb.numBlocks) (hzero : old = 0) :
    FindsBlock sb m old m.freeblock m.take where
  sane := hs.take hlt
  freeinode := rfl
  inUse := Finset.mem_Ico.mpr ⟨hs.start, Nat.lt_succ_self _⟩
  data := by
    rw [if_pos hzero]
    exact hs.blank _ (Nat.le_refl _)
  frame _ _ := rfl

/-- The next block is taken, and its number is stored in the indirect block `ind`. -/
theorem stored (hs : m.Sane sb) (hlt : m.freeblock < sb.numBlocks) {ind : ℕ}
    (hind : ind ∈ (m.abs sb ∅).used) (hzero : old = 0) (d : BlockData) :
    FindsBlock sb m old m.freeblock (m.take.write ind d) := by
  obtain ⟨hge, hltf⟩ := Finset.mem_Ico.mp hind
  have hsane : m.take.Sane sb := hs.take hlt
  refine ⟨hsane.write (Nat.lt_succ_of_lt hltf) d, rfl,
    Finset.mem_Ico.mpr ⟨hs.start, Nat.lt_succ_self _⟩, ?_, fun n hn => ?_⟩
  · rw [if_pos hzero]
    exact (Function.update_of_ne (Nat.ne_of_gt hltf) _ _).trans (hs.blank _ (Nat.le_refl _))
  · exact Function.update_of_ne (by omega) _ _

/-- A block has been taken before. -/
theorem of_take (h : FindsBlock sb m.take old x t) : FindsBlock sb m old x t :=
  ⟨h.sane, h.freeinode, h.inUse, h.data, h.frame⟩

end FindsBlock

private theorem erase_insert_empty (n : ℕ) : (insert n (∅ : Finset ℕ)).erase n = ∅ :=
  Finset.erase_insert (Finset.notMem_empty n)

/-- What `mapIndirect` comes to over the image. -/
theorem wp_mapIndirect {Q : ℕ × Inode → MapState → Prop} {d : BlockData} (hs : m.Sane sb)
    (hd : m.blocks inode.entry.indirect.toNat = d) :
    wp (mapIndirect (firstFit sb) (some op) inode k) Q E (m.abs sb ∅) ↔
      if d.addr k = 0 then
        if m.freeblock < sb.numBlocks then
          Q ((UInt32.ofNat m.freeblock).toNat, inode)
            ((m.take.write inode.entry.indirect.toNat
              (d.setAddr k (.ofNat m.freeblock))).abs sb ∅)
        else E .panic
      else Q ((d.addr k).toNat, inode) (m.abs sb ∅) := by
  subst hd
  set ind := inode.entry.indirect.toNat with hind
  rw [mapIndirect, wp_bind]
  show wp _ _ _ (m.abs sb (insert ind ∅)) ↔ _
  rw [wp_bind]
  show wp (if (m.blocks ind).addr k = 0 then _ else _) _ _ _ ↔ _
  by_cases haddr : (m.blocks ind).addr k = 0
  · rw [if_pos haddr, if_pos haddr, if_neg (by simp), wp_bind, hs.wp_alloc]
    by_cases hlt : m.freeblock < sb.numBlocks
    · rw [if_pos hlt, if_pos hlt]
      show Q _ ⟨Function.update m.blocks ind _, (insert ind (∅ : Finset ℕ)).erase ind, _⟩ ↔ _
      rw [erase_insert_empty]
      rfl
    · rw [if_neg hlt, if_neg hlt]
  · rw [if_neg haddr, if_neg haddr]
    show Q _ ⟨m.blocks, (insert ind (∅ : Finset ℕ)).erase ind, _⟩ ↔ _
    rw [erase_insert_empty]
    rfl

/-- What holds after the first part of a pass when `inode_map` ends with `Q`: a number behind
the image stands for a panic of the allocator. -/
def Follows (sb : SuperBlock) (m : Image) (inode : Inode) (old : ℕ)
    (Q : ℕ × Inode → MapState → Prop) (E : Fault → Prop) (r : ℕ × InodeEntry) (t : Image) : Prop :=
  t.sectors = m.sectors ∧ if r.1 < sb.numBlocks then
    FindsBlock sb m old r.1 t ∧ Q (r.1, { inode with entry := r.2 }) (t.abs sb ∅)
  else E .panic

/-- The number of the next block, as it is stored. -/
theorem Image.Sane.toNat_freeblock (hs : m.Sane sb) (hl : sb.Layout) :
    (UInt32.ofNat m.freeblock).toNat = m.freeblock := by
  rw [UInt32.toNat_ofNat']
  exact Nat.mod_eq_of_lt (Nat.lt_of_le_of_lt hs.le hl.numBlocks)

section FileBlock

variable {Q : ℕ × Inode → MapState → Prop} {j : ℕ}

/-- `indirectBlock` does what `mapIndirect` does. -/
theorem wp_indirectBlock (hl : sb.Layout) (hs : m.Sane sb)
    (hind : inode.entry.indirect.toNat ∈ (m.abs sb ∅).used) (hj : j < inodeNumIndirect)
    (ho : (m.blocks inode.entry.indirect.toNat).addr j ≠ 0 →
      ((m.blocks inode.entry.indirect.toNat).addr j).toNat ∈ (m.abs sb ∅).used)
    (h : wp (mapIndirect (firstFit sb) (some op) inode j) Q E (m.abs sb ∅)) :
    wp (indirectBlock j inode.entry) (fun x => Follows sb m inode
        ((m.blocks inode.entry.indirect.toNat).addr j).toNat Q E (x, inode.entry))
      (fun _ => E .panic) m := by
  set ind := inode.entry.indirect.toNat with hindeq
  have hsec : ind < m.sectors := by
    rw [hs.sectors]
    exact (hs.inData hind).2
  have hnat := hs.toNat_freeblock hl
  rw [wp_mapIndirect hs rfl] at h
  simp only [indirectBlock, xint_eq, wp_bind, wp_rsect]
  rw [if_pos hsec]
  by_cases haddr : (m.blocks ind).addr j = 0
  · rw [if_pos haddr] at h
    rw [if_pos haddr, wp_bind, wp_nextBlock, wp_bind]
    refine (wp_wsect (m := m.take) hsec).mpr ?_
    rw [wp_pure, BlockData.addr_setAddr _ hj, if_pos rfl, hnat]
    refine ⟨rfl, ?_⟩
    by_cases hlt : m.freeblock < sb.numBlocks
    · rw [if_pos hlt, hnat] at h
      rw [if_pos hlt]
      exact ⟨.stored hs hlt hind (toNat_eq_zero.mpr haddr) _, h⟩
    · rw [if_neg hlt] at h
      rwa [if_neg hlt]
  · rw [if_neg haddr] at h
    have hmem := ho haddr
    rw [if_neg haddr, wp_pure, Follows, if_pos (hs.inData hmem).2]
    exact ⟨rfl, .mapped hs hmem fun h0 => haddr (toNat_eq_zero.mp h0), h⟩

/-- A direct block. -/
theorem wp_fileBlock_direct (hl : sb.Layout) (hs : m.Sane sb) (ho : OwnsBlocks sb m inode.entry)
    (hk : k < inodeNumDirect) (hoff : off / blockSize = k)
    (h : wp (inodeMap (firstFit sb) (some op) inode off) Q E (m.abs sb ∅)) :
    wp (fileBlock k inode.entry) (Follows sb m inode (blockOf inode.entry m.blocks k) Q E)
      (fun _ => E .panic) m := by
  have hnat := hs.toNat_freeblock hl
  have h32 : inodeNumDirect < 2 ^ 32 := by decide
  have hmod : k % 2 ^ 32 = k := Nat.mod_eq_of_lt (by omega)
  have hblock : blockOf inode.entry m.blocks k = (inode.entry.addr k).toNat := blockOf_direct hk
  simp only [inodeMap, hoff, hmod] at h
  rw [if_pos hk] at h
  simp only [fileBlock, xint_eq]
  rw [if_pos hk]
  by_cases haddr : inode.entry.addr k = 0
  · rw [if_pos haddr, wp_bind, wp_nextBlock, wp_pure, InodeEntry.addr_setAddr _ hk,
      if_pos rfl, hnat]
    refine ⟨rfl, ?_⟩
    rw [if_pos haddr, if_neg (by simp), wp_bind, hs.wp_alloc] at h
    by_cases hlt : m.freeblock < sb.numBlocks
    · rw [if_pos hlt, wp_pure, hnat] at h
      rw [if_pos hlt]
      exact ⟨.fresh hs hlt (by rw [hblock, haddr]; rfl), h⟩
    · rw [if_neg hlt] at h
      rwa [if_neg hlt]
  · have hne : blockOf inode.entry m.blocks k ≠ 0 := by
      rw [hblock]
      exact fun h0 => haddr (toNat_eq_zero.mp h0)
    have hmem := ho k hne
    rw [if_neg haddr, wp_pure, ← hblock, Follows, if_pos (hs.inData hmem).2]
    rw [if_neg haddr, wp_pure, ← hblock] at h
    exact ⟨rfl, .mapped hs hmem hne, h⟩

/-- What `inode_map` does for a block behind the direct ones. -/
theorem inodeMap_indirect (hj : j < inodeNumIndirect)
    (hoff : off / blockSize = inodeNumDirect + j) :
    inodeMap (firstFit sb) (some op) inode off = if inode.entry.indirect = 0 then do
        let n ← (firstFit sb).alloc (some op)
        mapIndirect (firstFit sb) (some op)
          { inode with entry := { inode.entry with indirect := .ofNat n } } j
      else mapIndirect (firstFit sb) (some op) inode j := by
  have h32 : inodeNumDirect + inodeNumIndirect < 2 ^ 32 := by decide
  have hmod : (inodeNumDirect + j) % 2 ^ 32 = inodeNumDirect + j := Nat.mod_eq_of_lt (by omega)
  simp only [inodeMap, hoff, hmod]
  rw [if_neg (Nat.not_lt.mpr (Nat.le_add_right _ _)), Nat.add_sub_cancel_left, if_pos hj]
  rfl

/-- The indirect block is new, and so is the block. -/
theorem wp_fileBlock_fresh (hl : sb.Layout) (hs : m.Sane sb) (hj : j < inodeNumIndirect)
    (hind : inode.entry.indirect = 0) (hoff : off / blockSize = inodeNumDirect + j)
    (h : wp (inodeMap (firstFit sb) (some op) inode off) Q E (m.abs sb ∅)) :
    wp (fileBlock (inodeNumDirect + j) inode.entry)
      (Follows sb m inode (blockOf inode.entry m.blocks (inodeNumDirect + j)) Q E)
      (fun _ => E .panic) m := by
  have hdirect : ¬ inodeNumDirect + j < inodeNumDirect := Nat.not_lt.mpr (Nat.le_add_right _ _)
  have hzero : blockOf inode.entry m.blocks (inodeNumDirect + j) = 0 := by
    rw [blockOf, if_neg hdirect, if_pos (Nat.add_lt_add_left hj _), if_pos hind]
  have hnat := hs.toNat_freeblock hl
  set inode₁ : Inode :=
    { inode with entry := { inode.entry with indirect := .ofNat m.freeblock } } with hinode₁
  have hnat₁ : inode₁.entry.indirect.toNat = m.freeblock := hnat
  rw [inodeMap_indirect hj hoff, if_pos hind, wp_bind, hs.wp_alloc] at h
  simp only [fileBlock, xint_eq]
  rw [if_neg hdirect, Nat.add_sub_cancel_left, if_pos hind, wp_bind, wp_nextBlock, wp_bind]
  by_cases hlt : m.freeblock < sb.numBlocks
  · rw [if_pos hlt] at h
    change wp (mapIndirect (firstFit sb) (some op) inode₁ j) Q E (m.take.abs sb ∅) at h
    have haddr : (m.take.blocks inode₁.entry.indirect.toNat).addr j = 0 := by
      rw [hnat₁]
      show (m.blocks m.freeblock).addr j = 0
      rw [hs.blank _ (Nat.le_refl _), BlockData.addr_fill_zero hj]
    have hmem : inode₁.entry.indirect.toNat ∈ (m.take.abs sb ∅).used := by
      rw [hnat₁]
      exact Finset.mem_Ico.mpr ⟨hs.start, Nat.lt_succ_self _⟩
    have hrun := wp_indirectBlock hl (hs.take hlt) hmem hj (fun hne => absurd haddr hne) h
    refine wp_mono hrun (fun x t hx => ?_) fun _ hE => hE
    obtain ⟨hsec, hx⟩ := hx
    rw [wp_pure, Follows, hzero]
    refine ⟨hsec, ?_⟩
    split at hx
    · rename_i hlt'
      rw [if_pos hlt']
      rw [haddr] at hx
      exact ⟨hx.1.of_take, hx.2⟩
    · rename_i hge
      rwa [if_neg hge]
  · -- the new indirect block cannot be read
    rw [if_neg hlt] at h
    simp only [indirectBlock, xint_eq, wp_bind, wp_rsect]
    rw [if_neg]
    · exact h
    · show ¬ (UInt32.ofNat m.freeblock).toNat < m.sectors
      rw [hnat, hs.sectors]
      exact hlt

/-- The first part of a pass does what `inode_map` does. -/
theorem wp_fileBlock (hl : sb.Layout) (hs : m.Sane sb) (ho : OwnsBlocks sb m inode.entry)
    (hk : k < inodeMaxBlocks) (hoff : off / blockSize = k)
    (h : wp (inodeMap (firstFit sb) (some op) inode off) Q E (m.abs sb ∅)) :
    wp (fileBlock k inode.entry) (Follows sb m inode (blockOf inode.entry m.blocks k) Q E)
      (fun _ => E .panic) m := by
  by_cases hdirect : k < inodeNumDirect
  · exact wp_fileBlock_direct hl hs ho hdirect hoff h
  · have hmax : inodeMaxBlocks = inodeNumDirect + inodeNumIndirect := rfl
    obtain ⟨j, rfl⟩ : ∃ j, k = inodeNumDirect + j := ⟨k - inodeNumDirect, by omega⟩
    have hj : j < inodeNumIndirect := by omega
    by_cases hind : inode.entry.indirect = 0
    · exact wp_fileBlock_fresh hl hs hj hind hoff h
    · have hmem : inode.entry.indirect.toNat ∈ (m.abs sb ∅).used := by
        have hslot : blockOf inode.entry m.blocks indirectSlot = inode.entry.indirect.toNat :=
          blockOf_indirectSlot
        rw [← hslot]
        refine ho _ ?_
        rw [hslot]
        exact fun h0 => hind (toNat_eq_zero.mp h0)
      have hblock := blockOf_indirect (v := m.blocks) hj hind
      rw [inodeMap_indirect hj hoff, if_neg hind] at h
      simp only [fileBlock, xint_eq]
      rw [if_neg hdirect, Nat.add_sub_cancel_left, if_neg hind, wp_bind, hblock]
      refine wp_mono (wp_indirectBlock hl hs hmem hj (fun hne => ?_) h) (fun x t hx => hx)
        fun _ hE => hE
      rw [← hblock]
      refine ho _ ?_
      rw [hblock]
      exact fun h0 => hne (toNat_eq_zero.mp h0)

end FileBlock

/-- Behind `p` the block has zeros, so that the rest of it can be written too. -/
theorem patch_eq {d : BlockData} {o : ℕ} {p : List UInt8} {src : ℕ → UInt8}
    (hd : ∀ j, o ≤ j → d.byte j = 0) (hsrc : ∀ j, src j = p.getD j 0) :
    d.patch o (min p.length (blockSize - o)) (fun j => p.getD j 0)
      = d.patch o (blockSize - o) src := by
  funext j
  have hj := j.isLt
  rw [BlockData.patch, BlockData.patch]
  by_cases hin : o ≤ j.val ∧ j.val < o + (blockSize - o)
  · rw [if_pos hin, hsrc]
    by_cases hlen : j.val < o + min p.length (blockSize - o)
    · rw [if_pos ⟨hin.1, hlen⟩]
    · have hzero := hd j.val hin.1
      rw [BlockData.byte_val] at hzero
      rw [if_neg fun h => hlen h.2, hzero, List.getD_eq_getElem?_getD,
        List.getElem?_eq_none (by omega), Option.getD_none]
  · rw [if_neg hin, if_neg fun h => hin ⟨h.1, by omega⟩]

/-- **A pass of `iappend` is a pass of `inode_write`** up to the end of the block. -/
theorem wp_appendPass {p : List UInt8} {src : ℕ → UInt8} {count total : ℕ}
    {Q : Inode → MapState → Prop} (hl : sb.Layout) (hs : m.Sane sb)
    (ho : OwnsBlocks sb m inode.entry) (hk : off / blockSize < inodeMaxBlocks)
    (htail : ∀ j, off % blockSize ≤ j → blockOf inode.entry m.blocks (off / blockSize) ≠ 0 →
      (m.blocks (blockOf inode.entry m.blocks (off / blockSize))).byte j = 0)
    (hchunk : chunk off (count - total) = blockSize - off % blockSize)
    (hsrc : ∀ j, src (total + j) = p.getD j 0)
    (h : wp (writeChunk (firstFit sb) (some op) src count off total inode) Q E (m.abs sb ∅)) :
    wp (appendPass p off inode.entry) (fun r t => r.1 = min p.length (blockSize - off % blockSize) ∧
        t.Sane sb ∧ t.freeinode = m.freeinode ∧ (∀ n < sb.dataStart, t.blocks n = m.blocks n) ∧
        Q { inode with entry := r.2 } (t.abs sb ∅)) (fun _ => E .panic) m := by
  have hn1 : (off / blockSize + 1) * blockSize - off = blockSize - off % blockSize := by
    simp only [blockSize]
    omega
  have hpos : off - off / blockSize * blockSize = off % blockSize := by
    simp only [blockSize]
    omega
  rw [writeChunk, wp_bind] at h
  rw [appendPass, wp_bind, wp_assert, if_pos hk, wp_bind]
  refine wp_mono (wp_fileBlock hl hs ho hk rfl h) (fun r t hr => ?_) fun _ hE => hE
  obtain ⟨hsectors, hr⟩ := hr
  rw [hs.sectors] at hsectors
  rw [wp_bind, wp_rsect, hsectors]
  by_cases hlt : r.1 < sb.numBlocks
  · rw [if_pos hlt] at hr
    obtain ⟨hfind, hQ⟩ := hr
    have hsec : r.1 < t.sectors := hsectors ▸ hlt
    have hdata : ∀ j, off % blockSize ≤ j → (t.blocks r.1).byte j = 0 := by
      intro j hj
      rw [hfind.data]
      split
      · by_cases hjlt : j < blockSize
        · exact BlockData.byte_fill 0 hjlt
        · rw [BlockData.byte, dif_neg hjlt]
      · rename_i hne
        exact htail j hj hne
    -- the bytes and the zeros behind them, as `inode_write` patches the block
    obtain ⟨hge, hltf⟩ := Finset.mem_Ico.mp hfind.inUse
    rw [if_pos hlt, wp_bind]
    refine (wp_wsect hsec).mpr ?_
    rw [wp_pure, hn1, hpos, patch_eq hdata fun j => hsrc j]
    refine ⟨rfl, hfind.sane.write hltf _, hfind.freeinode, fun n hn => ?_, ?_⟩
    · exact (Function.update_of_ne (by omega) _ _).trans (hfind.frame n hn)
    · have hQ' : Q { inode with entry := r.2 } ⟨Function.update t.blocks r.1
          ((t.blocks r.1).patch (off % blockSize) (chunk off (count - total))
            fun j => src (total + j)), (insert r.1 (∅ : Finset ℕ)).erase r.1,
          (t.abs sb ∅).used⟩ := hQ
      rw [erase_insert_empty, hchunk] at hQ'
      exact hQ'
  · -- there was no block, and the sector cannot be read
    rw [if_neg hlt] at hr
    rwa [if_neg hlt]

end Pass

/-! ### The loop of `iappend` -/

section Loop

variable {A : MapState} {ents : ℕ → InodeEntry} {i offset total fuel : ℕ} {bytes : List UInt8}
  {e : InodeEntry}

theorem appendLoop_nil {off : ℕ} : appendLoop fuel [] off e = pure (off, e) := by
  cases fuel <;> rfl

/-- How many bytes a pass writes. -/
theorem appendPass_le {p : List UInt8} {off : ℕ} : wp (appendPass p off e)
    (fun r _ => off / blockSize < inodeMaxBlocks ∧
      r.1 = min p.length ((off / blockSize + 1) * blockSize - off)) (fun _ => True) m := by
  rw [appendPass, wp_bind, wp_assert]
  split
  · rename_i hk
    rw [wp_bind]
    refine wp_mono (wp_of_returns (Q := fun _ _ => True) fun _ _ _ => trivial)
      (fun r t _ => ?_) fun _ h => h
    rw [wp_bind, wp_rsect]
    split
    · exact ⟨hk, rfl⟩
    · trivial
  · trivial

/-- The loop does not write behind the largest size of a file. -/
theorem appendLoop_le {p : List UInt8} {off : ℕ} (hp : p ≠ []) (hfuel : p.length ≤ fuel) :
    wp (appendLoop fuel p off e) (fun r _ => r.1 = off + p.length ∧ r.1 ≤ inodeMaxBytes)
      (fun _ => True) m := by
  induction fuel generalizing p off e m with
  | zero => exact absurd (List.length_eq_zero_iff.mp (Nat.le_zero.mp hfuel)) hp
  | succ fuel ih =>
    have hlen : 0 < p.length := List.length_pos_iff.mpr hp
    rw [appendLoop, if_neg hp, wp_bind]
    refine wp_mono appendPass_le (fun r t hr => ?_) fun _ h => h
    obtain ⟨hk, hr⟩ := hr
    simp only [inodeMaxBytes, inodeMaxBlocks, inodeNumDirect, inodeNumIndirect, blockSize]
      at hk hr ⊢
    by_cases hrest : p.drop r.1 = []
    · have hle := List.drop_eq_nil_iff.mp hrest
      rw [hrest, appendLoop_nil, wp_pure]
      constructor <;> omega
    · have hlt : r.1 < p.length := by
        by_contra hge
        exact hrest (List.drop_eq_nil_iff.mpr (by omega))
      refine wp_mono (ih hrest (by rw [List.length_drop]; omega)) (fun r' t' h' => ?_) fun _ h => h
      rw [List.length_drop] at h'
      exact ⟨by omega, h'.2⟩

/-- The blocks of the inode are in use. -/
theorem ownsBlocks_of_owns (h : Owns (slots (Function.update ents i e) m.blocks)
    (m.abs sb ∅).used) : OwnsBlocks sb m e := by
  intro l hne
  have hslot : slots (Function.update ents i e) m.blocks (i, l) = blockOf e m.blocks l := by
    rw [slots, Function.update_self]
  rw [← hslot] at hne ⊢
  exact h.mem_used hne

/-- Up to the end of its last block the file has zeros behind the bytes. -/
theorem offset_add_padding (offset : ℕ) (hoff : total < bytes.length) :
    offset + (fileBlocks (offset + bytes.length) * blockSize - offset)
      = fileBlocks (offset + bytes.length) * blockSize ∧
    total < fileBlocks (offset + bytes.length) * blockSize - offset ∧
    chunk (offset + total) (fileBlocks (offset + bytes.length) * blockSize - offset - total)
      = blockSize - (offset + total) % blockSize := by
  rw [chunk]
  simp only [fileBlocks, blockSize]
  omega

/-- A pass of `iappend` at byte `total` of `bytes`, as a pass of a write up to the end of the
last block. -/
theorem wp_appendPass_writing (hl : sb.Layout) (hA : A.held = ∅)
    (hsize : (ents i).numBytes.toNat = offset) (hmax : offset + bytes.length ≤ inodeMaxBytes)
    (hs : m.Sane sb)
    (hw : MapCache.Writing sb A ents i (fun j => bytes.getD j 0) offset total (m.abs sb ∅) e)
    (htotal : total < bytes.length)
    (htail : ∀ j, (offset + total) % blockSize ≤ j →
      blockOf e m.blocks ((offset + total) / blockSize) ≠ 0 →
      (m.blocks (blockOf e m.blocks ((offset + total) / blockSize))).byte j = 0) :
    wp (appendPass (bytes.drop total) (offset + total) e) (fun r t =>
        r.1 = min (bytes.length - total) (blockSize - (offset + total) % blockSize) ∧
        t.Sane sb ∧ t.freeinode = m.freeinode ∧ (∀ n < sb.dataStart, t.blocks n = m.blocks n) ∧
        MapCache.Writing sb A ents i (fun j => bytes.getD j 0) offset
          (total + (blockSize - (offset + total) % blockSize)) (t.abs sb ∅) r.2)
      (fun _ => sb.numDataBlocks + blocksFor offset < A.used.card
        + blocksFor (offset + bytes.length)) m := by
  obtain ⟨hend, htcount, hchunk⟩ := offset_add_padding offset htotal
  set count := fileBlocks (offset + bytes.length) * blockSize - offset with hcount
  have hsrc : ∀ j, bytes.getD (total + j) 0 = (bytes.drop total).getD j 0 := fun j => by
    rw [List.getD_eq_getElem?_getD, List.getD_eq_getElem?_getD, List.getElem?_drop]
  have hcmax : offset + count ≤ inodeMaxBytes := by
    rw [hend]
    exact Nat.mul_le_mul_right _ (fileBlocks_le hmax)
  have hk : (offset + total) / blockSize < inodeMaxBlocks := by
    have := div_lt_fileBlocks (show offset + total < inodeMaxBytes by omega)
    exact Nat.lt_of_lt_of_le this (fileBlocks_le (Nat.le_refl _))
  set inode : Inode := ⟨1, i, true, e⟩ with hinode
  have hpass : wp (writeChunk (firstFit sb) (some 0) (fun j => bytes.getD j 0) count
        (offset + total) total inode)
      (fun x B => MapCache.Writing sb A ents i (fun j => bytes.getD j 0) offset
        (total + chunk (offset + total) (count - total)) B x.entry)
      (fun _ => sb.numDataBlocks + blocksFor offset < A.used.card
        + blocksFor (offset + bytes.length)) (m.abs sb ∅) := by
    refine MapCache.wp_writeChunk (M := firstFitCache sb hl) hl hA (hs.at hl) hw rfl htcount
      hcmax (fun _ hfail => ?_) fun e' B C hC hw' => ?_
    · -- to the end of the block a write needs no more blocks
      have hfull : fileBlocks (offset + count) = fileBlocks (offset + bytes.length) := by
        rw [hend, fileBlocks_full]
      rw [hsize] at hfail
      refine Nat.lt_of_lt_of_le hfail (Nat.add_le_add_left ?_ _)
      rw [blocksFor, ← hfull]
      refine MapCache.slotCount_mono (MapCache.fileBlocks_mono ?_)
      have := chunk_le (offset + total) (count - total)
      omega
    · obtain ⟨-, rfl⟩ := hC
      exact hw'
  have howns : OwnsBlocks sb m inode.entry := ownsBlocks_of_owns hw.owns
  have hrun := wp_appendPass hl hs howns hk htail hchunk hsrc hpass
  refine wp_mono hrun (fun r t hr => ?_) fun _ h => h
  rw [hchunk, List.length_drop] at hr
  exact hr

/-- The passes of `iappend` from byte `total` of `bytes` on. -/
theorem wp_appendLoop (hl : sb.Layout) (hA : A.held = ∅) (hsize : (ents i).numBytes.toNat = offset)
    (hmax : offset + bytes.length ≤ inodeMaxBytes) (hs : m.Sane sb)
    (hw : MapCache.Writing sb A ents i (fun j => bytes.getD j 0) offset total (m.abs sb ∅) e)
    (htotal : total < bytes.length) (hfuel : bytes.length - total ≤ fuel)
    (htail : ∀ j, (offset + total) % blockSize ≤ j →
      blockOf e m.blocks ((offset + total) / blockSize) ≠ 0 →
      (m.blocks (blockOf e m.blocks ((offset + total) / blockSize))).byte j = 0) :
    wp (appendLoop fuel (bytes.drop total) (offset + total) e) (fun r t =>
        r.1 = offset + bytes.length ∧ t.Sane sb ∧ t.freeinode = m.freeinode ∧
        (∀ n < sb.dataStart, t.blocks n = m.blocks n) ∧
        MapCache.Writing sb A ents i (fun j => bytes.getD j 0) offset
          (fileBlocks (offset + bytes.length) * blockSize - offset) (t.abs sb ∅) r.2)
      (fun _ => sb.numDataBlocks + blocksFor offset < A.used.card
        + blocksFor (offset + bytes.length)) m := by
  induction fuel generalizing total m e with
  | zero => omega
  | succ fuel ih =>
    have hdrop : bytes.drop total ≠ [] := by
      rw [Ne, List.drop_eq_nil_iff]
      omega
    rw [appendLoop, if_neg hdrop, wp_bind]
    refine wp_mono (wp_appendPass_writing hl hA hsize hmax hs hw htotal htail)
      (fun r t hr => ?_) fun _ h => h
    obtain ⟨hr1, ht, hfree, hframe, hw'⟩ := hr
    have hmod := Nat.mod_lt (offset + total) (show 0 < blockSize by decide)
    rw [List.drop_drop]
    by_cases hlast : bytes.length - total ≤ blockSize - (offset + total) % blockSize
    · -- the last pass
      have hr1' : r.1 = bytes.length - total := by omega
      have htot : total + (blockSize - (offset + total) % blockSize)
          = fileBlocks (offset + bytes.length) * blockSize - offset := by
        simp only [fileBlocks, blockSize] at *
        omega
      rw [hr1', List.drop_eq_nil_iff.mpr (by omega), appendLoop_nil, wp_pure]
      rw [htot] at hw'
      exact ⟨by omega, ht, hfree, hframe, hw'⟩
    · have hr1' : r.1 = blockSize - (offset + total) % blockSize := by omega
      rw [← hr1'] at hw'
      rw [Nat.add_assoc]
      refine wp_mono (ih ht hw' (by omega) (by omega) fun j _ hne => ?_) (fun r' t' h' => ?_)
        fun _ h => h
      · -- the next block is not mapped
        refine absurd ?_ hne
        have hmaps := hw'.maps
        rw [hsize, Nat.max_eq_right (Nat.le_add_right _ _)] at hmaps
        by_contra hne'
        have hlt := (hmaps.block _ ?_).mp hne'
        · simp only [hr1', fileBlocks, blockSize] at hlt
          omega
        · have hbytes := div_lt_fileBlocks
            (show offset + (total + r.1) < inodeMaxBytes by omega)
          exact Nat.lt_of_lt_of_le hbytes (fileBlocks_le (Nat.le_refl _))
      · obtain ⟨h1, h2, h3, h4, h5⟩ := h'
        exact ⟨h1, h2, h3.trans hfree, fun n hn => (h4 n hn).trans (hframe n hn), h5⟩

end Loop

end Mkfs

end OsLab
