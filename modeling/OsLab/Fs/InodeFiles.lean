/-
What the functions of the inode layer do to the files.

`byteAt e v p` is byte `p` of the file with entry `e` on a disk with content `v`.

* `wp_inodeRead` — `inode_read` returns the bytes of the file;
* `wp_writeChunk` — what one pass of the loop of `inode_write` does to the blocks
  and bytes of the inode and of the others (`Writing`).
-/
import OsLab.Fs.InodeBlocks

namespace OsLab

/-- The number of blocks of a file of `n` bytes. -/
def fileBlocks (n : ℕ) : ℕ := (n + (blockSize - 1)) / blockSize

/-- Byte `p` of a file. -/
def byteAt (e : InodeEntry) (v : ℕ → BlockData) (p : ℕ) : UInt8 :=
  (v (blockOf e v (p / blockSize))).byte (p % blockSize)

theorem div_lt_fileBlocks {p n : ℕ} (h : p < n) : p / blockSize < fileBlocks n := by
  simp only [fileBlocks, blockSize]
  omega

theorem fileBlocks_le {n : ℕ} (h : n ≤ inodeMaxBytes) : fileBlocks n ≤ inodeMaxBlocks := by
  simp only [fileBlocks, inodeMaxBytes, inodeMaxBlocks, inodeNumDirect, inodeNumIndirect,
    blockSize] at *
  omega

theorem chunk_add_le (offset remaining : ℕ) :
    offset % blockSize + chunk offset remaining ≤ blockSize := by
  have := Nat.mod_lt offset (show 0 < blockSize by decide)
  have := Nat.min_le_right remaining (blockSize - offset % blockSize)
  rw [chunk]
  omega

/-- The blocks of a file that is written up to `q + step`, inside the block of byte
`q`. -/
theorem fileBlocks_step {nb q step : ℕ} (hpos : 0 < step) (hle : q % blockSize + step ≤ blockSize) :
    fileBlocks (max nb (q + step)) = max (fileBlocks (max nb q)) (q / blockSize + 1) := by
  simp only [fileBlocks, blockSize] at *
  omega

theorem div_le_fileBlocks (nb q : ℕ) : q / blockSize ≤ fileBlocks (max nb q) := by
  simp only [fileBlocks, blockSize]
  omega

/-- A file ends in the block of byte `q` or before it when that block is not mapped. -/
theorem le_of_fileBlocks_le {nb q : ℕ} (h : fileBlocks (max nb q) ≤ q / blockSize) : nb ≤ q := by
  simp only [fileBlocks, blockSize] at *
  omega

/-- The blocks of inode `i` and their content do not change. -/
def Undisturbed (v v' : ℕ → BlockData) (e : InodeEntry) : Prop :=
  ∀ k, blockOf e v' k = blockOf e v k ∧
    (blockOf e v k ≠ 0 → v' (blockOf e v k) = v (blockOf e v k))

section Undisturbed

variable {v v' v'' : ℕ → BlockData} {e : InodeEntry} {c p : ℕ}

theorem Undisturbed.refl (v : ℕ → BlockData) (e : InodeEntry) : Undisturbed v v e :=
  fun _ => ⟨rfl, fun _ => rfl⟩

theorem Undisturbed.trans (h : Undisturbed v v' e) (h' : Undisturbed v' v'' e) :
    Undisturbed v v'' e := by
  intro k
  obtain ⟨hk, hv⟩ := h k
  obtain ⟨hk', hv'⟩ := h' k
  rw [hk] at hk' hv'
  exact ⟨hk', fun hne => (hv' hne).trans (hv hne)⟩

theorem Undisturbed.maps (h : Undisturbed v v' e) (hm : Maps e v c) : Maps e v' c :=
  ⟨hm.le, fun k hk => by rw [(h k).1]; exact hm.block k hk, hm.indirect⟩

theorem Undisturbed.byteAt (h : Undisturbed v v' e) (hne : blockOf e v (p / blockSize) ≠ 0) :
    byteAt e v' p = byteAt e v p := by
  rw [OsLab.byteAt, OsLab.byteAt, (h _).1, (h _).2 hne]

/-- An inode whose blocks keep their content is undisturbed. -/
theorem undisturbed_of_view
    (h : ∀ k, blockOf e v k ≠ 0 → v' (blockOf e v k) = v (blockOf e v k)) :
    Undisturbed v v' e := by
  refine fun k => ⟨blockOf_congr (fun he => ?_) k, h k⟩
  have hne : blockOf e v indirectSlot ≠ 0 := by
    rw [blockOf_indirectSlot]
    exact fun h0 => he (toNat_eq_zero.mp h0)
  have hview := h indirectSlot hne
  rwa [blockOf_indirectSlot] at hview

end Undisturbed

namespace MapCache

variable {sb : SuperBlock} {σ : Type} {M : MapCache sb σ} {s : σ} {A B : MapState}
  {E : Fault → Prop} {ctx : Option ℕ} {n i c offset count : ℕ} {inode : Inode}
  {ents : ℕ → InodeEntry}

/-! ### `inode_read` -/

/-- One pass of the loop of `inode_read`. -/
private theorem wp_readChunk {total : ℕ} {dest : List UInt8} {Q : List UInt8 → σ → Prop}
    (h : M.At s A) (hheld : A.held = ∅) (ho : Owns (slots ents A.view) A.used)
    (he : inode.entry = ents i) (hm : Maps (ents i) A.view c)
    (hlt : offset / blockSize < c)
    (hQ : ∀ t, M.At t A → Q (dest ++ (List.range (chunk offset (count - total))).map fun j =>
      byteAt (ents i) A.view (offset + j)) t) :
    wp (readChunk M.cache inode count offset total dest) Q E s := by
  have hle := hm.le
  have hne : blockOf (ents i) A.view (offset / blockSize) ≠ 0 :=
    (hm.block _ (by omega)).mpr hlt
  set n := blockOf (ents i) A.view (offset / blockSize) with hn
  have hmem : n ∈ A.used := ho.mem_used (k := (i, offset / blockSize)) hne
  have hnot : n ∉ A.held := by simp [hheld]
  simp only [readChunk, wp_bind]
  refine wp_inodeMap_mapped h hheld ho he hm hlt fun t ht => ?_
  refine wp_acquire ht (.inr hmem) hnot fun t ht => ?_
  refine wp_data ht (Finset.mem_insert_self _ _) ?_
  refine wp_release ht (Finset.mem_insert_self _ _) fun t ht => ?_
  rw [MapState.acquire_release hnot] at ht
  rw [wp_pure]
  -- the bytes of one pass are in one block
  have hbytes : (List.range (chunk offset (count - total))).map
      (fun j => (A.view n).byte (offset % blockSize + j))
      = (List.range (chunk offset (count - total))).map
        fun j => byteAt (ents i) A.view (offset + j) := by
    refine List.map_congr_left fun j hj => ?_
    have hj' : j < blockSize - offset % blockSize :=
      Nat.lt_of_lt_of_le (List.mem_range.mp hj) (Nat.min_le_right _ _)
    have hdiv : (offset + j) / blockSize = offset / blockSize := by
      simp only [blockSize] at *
      omega
    have hmod : (offset + j) % blockSize = offset % blockSize + j := by
      simp only [blockSize] at *
      omega
    rw [byteAt, hdiv, hmod]
  rw [hbytes]
  exact hQ t ht

/-- **`inode_read`** returns the bytes of the file from `offset` on. -/
theorem wp_inodeRead (h : M.At s A) (hheld : A.held = ∅) (ho : Owns (slots ents A.view) A.used)
    (he : inode.entry = ents i)
    (hm : Maps (ents i) A.view (fileBlocks (ents i).numBytes.toNat))
    (hoff : offset ≤ (ents i).numBytes.toNat) (hlt : offset + count < usizeSize) :
    wp (inodeRead M.cache inode offset count)
      (fun r t => M.At t A ∧ r.2 = min count ((ents i).numBytes.toNat - offset) ∧
        r.1 = (List.range r.2).map fun j => byteAt (ents i) A.view (offset + j)) E s := by
  set nb := (ents i).numBytes.toNat with hnb
  have h32 : nb < 2 ^ 32 := (ents i).numBytes.toNat_lt
  have husize : usizeSize = 2 ^ 64 := rfl
  have hcount : (if nb < (count + offset) % usizeSize then (nb + usizeSize - offset) % usizeSize
      else count) = min count (nb - offset) := by
    rw [Nat.mod_eq_of_lt (show count + offset < usizeSize by omega)]
    split
    · have hsub : nb + usizeSize - offset = (nb - offset) + usizeSize := by omega
      rw [hsub, Nat.add_mod_right, Nat.mod_eq_of_lt (by omega)]
      omega
    · omega
  simp only [inodeRead, he, ← hnb, hcount]
  set m := min count (nb - offset) with hmdef
  have hlast : (offset + m) % usizeSize = offset + m := Nat.mod_eq_of_lt (by omega)
  rw [hlast, if_pos ⟨hoff, by omega, by omega⟩]
  simp only [wp_bind]
  refine wp_mono (wp_forChunks (fun total dest t => M.At t A ∧
    dest = (List.range total).map fun j => byteAt (ents i) A.view (offset + j)) ⟨h, rfl⟩ ?_)
    (fun dest t ht => ?_) fun _ he => he
  · rintro total htotal dest t ⟨ht, rfl⟩
    refine wp_readChunk ht hheld ho he hm (div_lt_fileBlocks (by omega)) fun t ht => ⟨ht, ?_⟩
    rw [List.range_add, List.map_append, List.map_map]
    simp only [Function.comp_def, Nat.add_assoc]
  · rw [wp_pure]
    exact ⟨ht.1, rfl, ht.2⟩

/-! ### `inode_write` -/

/-- The loop of `inode_write` on inode `i`, when `total` bytes have been moved. -/
structure Writing (sb : SuperBlock) (A : MapState) (ents : ℕ → InodeEntry) (i : ℕ)
    (src : ℕ → UInt8) (offset total : ℕ) (B : MapState) (e : InodeEntry) : Prop where
  owns : Owns (slots (Function.update ents i e) B.view) B.used
  maps : Maps e B.view (fileBlocks (max (ents i).numBytes.toNat (offset + total)))
  held : B.held = A.held
  card : B.used.card + slotCount (fileBlocks (ents i).numBytes.toNat)
    = A.used.card + slotCount (fileBlocks (max (ents i).numBytes.toNat (offset + total)))
  entry : e = { ents i with addrs := e.addrs, indirect := e.indirect }
  /-- blocks are allocated behind the end only -/
  same : (ents i).numBytes.toNat < offset + total ∨ e = ents i
  content : ∀ p < max (ents i).numBytes.toNat (offset + total), byteAt e B.view p
    = if offset ≤ p ∧ p < offset + total then src (p - offset) else byteAt (ents i) A.view p
  inodes : ∀ x, sb.InInodes x → B.view x = A.view x
  others : ∀ j, j ≠ i → Undisturbed A.view B.view (ents j)

/-- Slot `(i, k)` of a file block is not that of an indirect block. -/
private theorem ne_indirect {v : ℕ → BlockData} {used : Finset ℕ} {j k : ℕ}
    (ho : Owns (slots ents v) used) (hk : k < inodeMaxBlocks) (hne : blockOf (ents i) v k ≠ 0) :
    blockOf (ents i) v k ≠ (ents j).indirect.toNat := by
  have hslot : slots ents v (j, indirectSlot) = (ents j).indirect.toNat := blockOf_indirectSlot
  rw [← hslot]
  refine ho.ne (k := (i, k)) (fun h => ?_) hne
  have := (Prod.mk.inj h).2
  simp only [indirectSlot] at this
  omega

/-- `inode_map` in a pass of `inode_write`: file block `k` of inode `i` is in `n`. -/
structure Mapped (sb : SuperBlock) (A : MapState) (ents : ℕ → InodeEntry) (i c k : ℕ)
    (B : MapState) (e : InodeEntry) : Prop where
  owns : Owns (slots (Function.update ents i e) B.view) B.used
  maps : Maps e B.view (max c (k + 1))
  held : B.held = A.held
  card : B.used.card + slotCount c = A.used.card + slotCount (max c (k + 1))
  entry : e = { ents i with addrs := e.addrs, indirect := e.indirect }
  same : c ≤ k ∨ e = ents i
  content : ∀ l < c, blockOf e B.view l = blockOf (ents i) A.view l ∧
    B.view (blockOf e B.view l) = A.view (blockOf (ents i) A.view l)
  inodes : ∀ x, sb.InInodes x → B.view x = A.view x
  others : ∀ j, j ≠ i → Undisturbed A.view B.view (ents j)

/-- `inode_map` of a file block that is mapped or the first that is not. -/
theorem wp_inodeMap {Q : ℕ × Inode → σ → Prop} {op k : ℕ} (hl : sb.Layout) (h : M.At s A)
    (hheld : A.held = ∅) (ho : Owns (slots ents A.view) A.used) (he : inode.entry = ents i)
    (hm : Maps (ents i) A.view c) (hk : k < inodeMaxBlocks) (hkc : k ≤ c)
    (hoff : offset / blockSize = k)
    (hE : ∀ e, sb.numDataBlocks + slotCount c < A.used.card + slotCount (max c (k + 1)) → E e)
    (hQ : ∀ e t B, M.At t B → Mapped sb A ents i c k B e →
      Q (blockOf e B.view k, { inode with entry := e }) t) :
    wp (inodeMap M.cache (some op) inode offset) Q E s := by
  by_cases hlt : k < c
  · have hmax : max c (k + 1) = c := by omega
    refine wp_inodeMap_mapped h hheld ho he hm (hoff ▸ hlt) fun t ht => ?_
    have hinode : ({ inode with entry := ents i } : Inode) = inode := by rw [← he]
    have hQ' := hQ (ents i) t A ht
      { owns := by rw [Function.update_eq_self]; exact ho
        maps := hmax.symm ▸ hm, held := rfl, card := by rw [hmax], entry := rfl, same := .inr rfl
        content := fun l _ => ⟨rfl, rfl⟩, inodes := fun _ _ => rfl
        others := fun j _ => .refl _ _ }
    rwa [hinode, ← hoff] at hQ'
  · obtain rfl : k = c := by omega
    have hmax : max k (k + 1) = k + 1 := by omega
    rw [hmax] at hE
    refine wp_inodeMap_fresh hl h hheld ho he hm hk hoff hE fun e t B ht hg => hQ e t B ht ?_
    refine
      { owns := hg.owns, maps := hmax.symm ▸ hg.maps, held := hg.held
        card := by rw [hmax]; exact hg.card, entry := hg.entry, same := .inl (Nat.le_refl _)
        content := fun l hlk => ?_, inodes := fun x hx => ?_, others := fun j hj => ?_ }
    · have hne : blockOf (ents i) A.view l ≠ 0 := (hm.block l (by omega)).mpr hlk
      rw [hg.keep l hlk]
      exact ⟨rfl, hg.view _ (.inr (ho.mem_used (k := (i, l)) hne))
        fun _ => ne_indirect ho (by omega) hne⟩
    · refine hg.view x (.inl hx) fun hind => ?_
      rintro rfl
      exact hl.not_inInodes (h.inData (indirect_mem ho hind)) hx
    · refine undisturbed_of_view fun l hne => ?_
      refine hg.view _ (.inr (ho.mem_used (k := (j, l)) hne)) fun hind => ?_
      have hslot : slots ents A.view (i, indirectSlot) = (ents i).indirect.toNat :=
        blockOf_indirectSlot
      rw [← hslot]
      exact ho.ne (k := (j, l)) (fun h => hj (Prod.mk.inj h).1) hne

/-- Storing into a file block of inode `i` changes no slot and no other file block. -/
theorem store_fileBlock {v : ℕ → BlockData} {used : Finset ℕ} {k : ℕ} (d : BlockData)
    (ho : Owns (slots ents v) used) (hk : k < inodeMaxBlocks) (hne : blockOf (ents i) v k ≠ 0) :
    (∀ x, slots ents (Function.update v (blockOf (ents i) v k) d) x = slots ents v x) ∧
    ∀ x, x ≠ (i, k) → slots ents v x ≠ 0 →
      Function.update v (blockOf (ents i) v k) d (slots ents v x) = v (slots ents v x) := by
  refine ⟨fun x => blockOf_congr (fun _ => ?_) x.2, fun x hx hx0 => ?_⟩
  · exact Function.update_of_ne (ne_indirect ho hk hne).symm _ _
  · exact Function.update_of_ne (ho.ne hx hx0) _ _

theorem Maps.congr {e : InodeEntry} {v v' : ℕ → BlockData} (hm : Maps e v c)
    (h : ∀ k, blockOf e v' k = blockOf e v k) : Maps e v' c :=
  ⟨hm.le, fun k hk => by rw [h]; exact hm.block k hk, hm.indirect⟩

/-- What a pass of `inode_write` leaves of the bytes, when its block is `k` and the
bytes `q … q + step - 1` are stored. -/
private theorem content_patch {e : InodeEntry} {v : ℕ → BlockData} {src : ℕ → UInt8}
    {k q step p : ℕ} (hk : q / blockSize = k) (hstep : q % blockSize + step ≤ blockSize)
    (hblock : ∀ l, blockOf e (Function.update v (blockOf e v k)
      ((v (blockOf e v k)).patch (q % blockSize) step src)) l = blockOf e v l)
    (hother : p / blockSize ≠ k → blockOf e v (p / blockSize) ≠ blockOf e v k) :
    byteAt e (Function.update v (blockOf e v k)
      ((v (blockOf e v k)).patch (q % blockSize) step src)) p
      = if q ≤ p ∧ p < q + step then src (p - q) else byteAt e v p := by
  have hp : p % blockSize < blockSize := Nat.mod_lt _ (by decide)
  rw [byteAt, hblock]
  by_cases hpk : p / blockSize = k
  · have hdiff : p % blockSize - q % blockSize = p - q := by
      simp only [blockSize] at *
      omega
    have hiff : q % blockSize ≤ p % blockSize ∧ p % blockSize < q % blockSize + step ↔
        q ≤ p ∧ p < q + step := by
      simp only [blockSize] at *
      omega
    rw [hpk, Function.update_self, BlockData.byte_patch _ _ hp, hdiff, byteAt, hpk]
    simp only [hiff]
  · have hout : ¬ (q ≤ p ∧ p < q + step) := by
      rintro ⟨hle, hlt⟩
      apply hpk
      simp only [blockSize] at *
      omega
    rw [if_neg hout, Function.update_of_ne (hother hpk)]
    rfl

/-- One pass of the loop of `inode_write`. -/
theorem wp_writeChunk {src : ℕ → UInt8} {total op : ℕ} {e : InodeEntry} {Q : Inode → σ → Prop}
    (hl : sb.Layout) (hheld : A.held = ∅) (h : M.At s B)
    (hw : Writing sb A ents i src offset total B e) (he : inode.entry = e) (htotal : total < count)
    (hmax : offset + count ≤ inodeMaxBytes)
    (hE : ∀ e, sb.numDataBlocks + slotCount (fileBlocks (ents i).numBytes.toNat)
      < A.used.card + slotCount (fileBlocks (max (ents i).numBytes.toNat
        (offset + (total + chunk (offset + total) (count - total))))) → E e)
    (hQ : ∀ e' t C, M.At t C →
      Writing sb A ents i src offset (total + chunk (offset + total) (count - total)) C e' →
      Q { inode with entry := e' } t) :
    wp (writeChunk M.cache (some op) src count (offset + total) total inode) Q E s := by
  set nb := (ents i).numBytes.toNat with hnbdef
  set q := offset + total with hq
  set step := chunk q (count - total) with hstep
  set c := fileBlocks (max nb q) with hc
  have hbs : blockSize = 512 := rfl
  have hpos : 0 < step := chunk_pos (by omega)
  have hmod : q % blockSize + step ≤ blockSize := chunk_add_le _ _
  have hle : step ≤ count - total := chunk_le _ _
  have hqlt : q < inodeMaxBytes := by omega
  have hkmax : q / blockSize < inodeMaxBlocks := by
    have := div_lt_fileBlocks hqlt
    exact Nat.lt_of_lt_of_le this (fileBlocks_le (Nat.le_refl _))
  -- the blocks that are mapped after the pass
  have hcount : fileBlocks (max nb (offset + (total + step))) = max c (q / blockSize + 1) := by
    rw [← Nat.add_assoc]
    exact fileBlocks_step hpos hmod
  have hkc : q / blockSize ≤ c := div_le_fileBlocks _ _
  have hheldB : B.held = ∅ := hw.held.trans hheld
  have hself : (Function.update ents i e) i = e := Function.update_self _ _ _
  simp only [writeChunk, wp_bind]
  refine wp_inodeMap hl h hheldB hw.owns (he.trans hself.symm) (hself.symm ▸ hw.maps) hkmax hkc rfl
    (fun err hfull => hE err ?_) fun e₁ t₁ B₁ ht₁ hm => ?_
  · have hcard : B.used.card + slotCount (fileBlocks nb) = A.used.card + slotCount c := hw.card
    rw [hcount]
    omega
  have ho₁ := hm.owns
  rw [Function.update_idem] at ho₁
  have hself₁ : (Function.update ents i e₁) i = e₁ := Function.update_self _ _ _
  set n := blockOf e₁ B₁.view (q / blockSize) with hn
  have hne : n ≠ 0 := (hm.maps.block _ hkmax).mpr (by omega)
  have hmem : n ∈ B₁.used := by
    have hslot : slots (Function.update ents i e₁) B₁.view (i, q / blockSize) = n := by
      rw [slots, hself₁]
    rw [← hslot]
    exact ho₁.mem_used (by rwa [hslot])
  have hnot : n ∉ B₁.held := by rw [hm.held, hheldB]; simp
  refine wp_acquire ht₁ (.inr hmem) hnot fun t ht => ?_
  refine wp_data ht (Finset.mem_insert_self _ _) ?_
  refine wp_store ht (Finset.mem_insert_self _ _) fun t ht => ?_
  refine wp_sync ht (Finset.mem_insert_self _ _) fun t ht => ?_
  refine wp_release ht (Finset.mem_insert_self _ _) fun t ht => ?_
  rw [wp_pure]
  set d := (B₁.view n).patch (q % blockSize) step fun j => src (total + j) with hd
  have hstore := store_fileBlock (i := i) d ho₁ hkmax (by rw [hself₁]; exact hne)
  rw [hself₁] at hstore
  have hblock : ∀ l, blockOf e₁ (Function.update B₁.view n d) l = blockOf e₁ B₁.view l := by
    intro l
    have := hstore.1 (i, l)
    simpa only [slots, hself₁] using this
  refine hQ e₁ t _ ht
    { owns := ho₁.congr hstore.1, maps := hcount ▸ Maps.congr hm.maps hblock
      held := ?_, card := ?_, entry := ?_, same := ?_, content := fun p hp => ?_
      inodes := fun x hx => ?_, others := fun j hj => ?_ }
  · show (insert n B₁.held).erase n = A.held
    rw [Finset.erase_insert hnot, hm.held, hw.held]
  · have h1 : B.used.card + slotCount (fileBlocks nb) = A.used.card + slotCount c := hw.card
    have h2 := hm.card
    rw [hcount]
    show B₁.used.card + slotCount (fileBlocks nb) = _
    omega
  · have h1 := hm.entry
    rw [hself, hw.entry] at h1
    exact h1
  · rcases hm.same with hck | hsame
    · have := le_of_fileBlocks_le hck
      exact .inl (by omega)
    · rw [hself] at hsame
      rw [hsame]
      exact hw.same.imp (fun hlt => by omega) id
  · have hmapped : ∀ l < c, blockOf e₁ B₁.view l ≠ 0 := fun l hlc =>
      (hm.maps.block l (by have := hm.maps.le; omega)).mpr (by omega)
    have hout : ¬ (q ≤ p ∧ p < q + step) → p < max nb q := by omega
    show byteAt e₁ (Function.update B₁.view n d) p = _
    rw [hd, content_patch rfl hmod hblock fun hpk => ?_]
    · by_cases hin : q ≤ p ∧ p < q + step
      · rw [if_pos hin, if_pos ⟨by omega, by omega⟩]
        congr 1
        omega
      · have hpm := hout hin
        have hold : byteAt e₁ B₁.view p = byteAt e B.view p := by
          have hcont := hm.content (p / blockSize) (div_lt_fileBlocks hpm)
          rw [hself] at hcont
          rw [byteAt, hcont.2]
          rfl
        have hiff : offset ≤ p ∧ p < offset + total ↔ offset ≤ p ∧ p < offset + (total + step) := by
          omega
        rw [if_neg hin, hold, hw.content p hpm]
        simp only [hiff]
    · -- another file block of the inode
      have hpm : p < max nb q := hout fun hin => hpk (by
        simp only [hbs] at *
        omega)
      have hlc := div_lt_fileBlocks hpm
      have hslot := ho₁.ne (k := (i, p / blockSize)) (l := (i, q / blockSize))
        (fun h => hpk (Prod.mk.inj h).2) (by rw [slots, hself₁]; exact hmapped _ hlc)
      rwa [slots, slots, hself₁] at hslot
  · show Function.update B₁.view n d x = _
    have hxn : x ≠ n := by
      rintro rfl
      exact hl.not_inInodes (ht₁.inData hmem) hx
    rw [Function.update_of_ne hxn, hm.inodes x hx, hw.inodes x hx]
  · have hentj : (Function.update ents i e) j = ents j := Function.update_of_ne hj _ _
    have h1 := hm.others j hj
    rw [hentj] at h1
    refine (hw.others j hj).trans (h1.trans (undisturbed_of_view fun l hne' => ?_))
    have hslot : slots (Function.update ents i e₁) B₁.view (j, l) = blockOf (ents j) B₁.view l := by
      rw [slots, Function.update_of_ne hj]
    have := hstore.2 (j, l) (fun h => hj (Prod.mk.inj h).1) (by rwa [hslot])
    rwa [hslot] at this

end MapCache
end OsLab
