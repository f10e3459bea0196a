/-
The image that `mkfs` writes.

`Image.Good` is what holds while the files are written: the image is a consistent file
system, and the bitmap is still to be written.  `ialloc` and `iappend` keep it.

* `wp_ialloc` — the next inode is an empty file;
* `wp_iappend` — the bytes are appended, and that fails only when the files would not fit;
* `wp_addFiles` — so are all the files of the host, with an entry for each in the root
  directory.
-/
import OsLab.User.MkfsAppend

namespace OsLab

/-! ### Room for files -/

/-- How many blocks the files need. -/
def filesCost (sb : SuperBlock) (f : Files) : ℕ :=
  ∑ i ∈ Finset.range sb.numInodes, blocksFor ((f i).elim 0 List.length)

/-- The files fit on the disk, and none is too long. -/
structure FitsDisk (sb : SuperBlock) (f : Files) : Prop where
  blocks : filesCost sb f ≤ sb.numDataBlocks
  size : ∀ i l, f i = some l → l.length ≤ inodeMaxBytes

/-- Each file has one in `g` that is at least as long. -/
def Shorter (f g : Files) : Prop := ∀ i l, f i = some l → ∃ l', g i = some l' ∧ l.length ≤ l'.length

section Room

variable {sb : SuperBlock} {A : MapState} {f g h : Files} {i : ℕ} {l l' : List UInt8}

theorem Shorter.refl (f : Files) : Shorter f f := fun _ l hl => ⟨l, hl, Nat.le_refl _⟩

theorem Shorter.trans (hfg : Shorter f g) (hgh : Shorter g h) : Shorter f h := by
  intro i l hl
  obtain ⟨l', hl', hle⟩ := hfg i l hl
  obtain ⟨l'', hl'', hle'⟩ := hgh i l' hl'
  exact ⟨l'', hl'', Nat.le_trans hle hle'⟩

/-- A file grows. -/
theorem shorter_update (hf : ∀ k, f i = some k → k.length ≤ l.length) :
    Shorter f (Function.update f i (some l)) := by
  intro j k hk
  by_cases hj : j = i
  · subst hj
    exact ⟨l, Function.update_self _ _ _, hf k hk⟩
  · exact ⟨k, by rw [Function.update_of_ne hj, hk], Nat.le_refl _⟩

theorem blocksFor_mono {m n : ℕ} (hmn : m ≤ n) : blocksFor m ≤ blocksFor n :=
  MapCache.slotCount_mono (MapCache.fileBlocks_mono hmn)

theorem FitsDisk.of_shorter (hg : FitsDisk sb g) (hfg : Shorter f g) : FitsDisk sb f := by
  refine ⟨Nat.le_trans (Finset.sum_le_sum fun i _ => blocksFor_mono ?_) hg.blocks, fun i l hl => ?_⟩
  · cases hi : f i with
    | none => exact Nat.zero_le _
    | some l =>
      obtain ⟨l', hl', hle⟩ := hfg i l hi
      rw [hl']
      exact hle
  · obtain ⟨l', hl', hle⟩ := hfg i l hl
    exact Nat.le_trans hle (hg.size i l' hl')

/-- The cost when a file changes. -/
theorem filesCost_update (hi : i < sb.numInodes) :
    filesCost sb (Function.update f i (some l)) + blocksFor ((f i).elim 0 List.length)
      = filesCost sb f + blocksFor l.length := by
  have hmem : i ∈ Finset.range sb.numInodes := Finset.mem_range.mpr hi
  have hrest : ∑ j ∈ (Finset.range sb.numInodes).erase i,
      blocksFor ((Function.update f i (some l) j).elim 0 List.length)
      = ∑ j ∈ (Finset.range sb.numInodes).erase i, blocksFor ((f j).elim 0 List.length) :=
    Finset.sum_congr rfl fun j hj => by rw [Function.update_of_ne (Finset.ne_of_mem_erase hj)]
  rw [filesCost, filesCost, ← Finset.add_sum_erase _ _ hmem, ← Finset.add_sum_erase _ _ hmem,
    hrest, Function.update_self]
  show blocksFor l.length + _ + _ = _
  omega

/-- The blocks in use are those that the files need. -/
theorem Consistent.card_used_files (hc : Consistent sb A) :
    A.used.card = filesCost sb (files sb A.view) := by
  rw [hc.card_used, filesCost]
  refine Finset.sum_congr rfl fun i _ => ?_
  rw [files, liveEntry]
  split
  · rw [Option.elim_some, length_content]
  · rfl

end Room

theorem SuperBlock.Layout.bitmapStart_lt_dataStart {sb : SuperBlock} (hl : sb.Layout) :
    sb.bitmapStart < sb.dataStart :=
  Nat.lt_of_lt_of_le (Nat.lt_succ_self _) (Nat.le_trans (Nat.le_add_right _ _) hl.bitmap)

namespace Mkfs

variable {sb : SuperBlock} {m t : Image} {D : ℕ → BlockData} {f : Files} {i : ℕ} {l : List UInt8}

/-! ### Inodes -/

/-- The image when the entry of inode `i` has been written. -/
def Image.setEntry (sb : SuperBlock) (m : Image) (i : ℕ) (e : InodeEntry) : Image :=
  m.write (toBlockNo sb i) ((m.blocks (toBlockNo sb i)).setInodeEntry (i % inodePerBlock) e)

theorem blocks_setEntry {e : InodeEntry} {n : ℕ} (hl : sb.Layout) (hi : i < sb.numInodes)
    (hn : ¬ sb.InInodes n) : (m.setEntry sb i e).blocks n = m.blocks n := by
  refine Function.update_of_ne ?_ _ _
  rintro rfl
  exact hn (hl.inInodes_toBlockNo hi)

theorem Image.Sane.toBlockNo_lt (hs : m.Sane sb) (hl : sb.Layout) (hi : i < sb.numInodes) :
    toBlockNo sb i < sb.dataStart ∧ toBlockNo sb i < m.sectors := by
  have hlt := (hl.inInodes_toBlockNo hi).2
  have hb := Nat.le_trans (Nat.le_add_right _ _) hl.bitmap
  have h1 := hs.start
  have h2 := hs.le
  rw [hs.sectors]
  omega

theorem Image.Sane.setEntry {e : InodeEntry} (hs : m.Sane sb) (hl : sb.Layout)
    (hi : i < sb.numInodes) : (m.setEntry sb i e).Sane sb :=
  hs.write (Nat.lt_of_lt_of_le (hs.toBlockNo_lt hl hi).1 hs.start) _

theorem wp_rinode {Q : InodeEntry → Image → Prop} {E : Stop → Prop} (hl : sb.Layout)
    (hs : m.Sane sb) (hi : i < sb.numInodes) :
    wp (rinode sb i) Q E m ↔ Q (diskEntry sb m.blocks i) m := by
  have hblock : iblock sb i = toBlockNo sb i := Nat.add_comm _ _
  rw [rinode, wp_bind, wp_rsect, hblock, if_pos (hs.toBlockNo_lt hl hi).2, wp_pure]
  rfl

theorem wp_winode {Q : Unit → Image → Prop} {E : Stop → Prop} {e : InodeEntry} (hl : sb.Layout)
    (hs : m.Sane sb) (hi : i < sb.numInodes) :
    wp (winode sb i e) Q E m ↔ Q () (m.setEntry sb i e) := by
  have hblock : iblock sb i = toBlockNo sb i := Nat.add_comm _ _
  have hlt := (hs.toBlockNo_lt hl hi).2
  rw [winode, wp_bind, wp_rsect, hblock, if_pos hlt]
  exact wp_wsect hlt

/-- What holds while the files are written; `D` is what is outside of the inodes and of the
data, and `f` are the files. -/
structure Image.Good (sb : SuperBlock) (D : ℕ → BlockData) (m : Image) (f : Files) : Prop
    extends m.Sane sb where
  consistent : Consistent sb (m.abs sb ∅)
  files : OsLab.files sb m.blocks = f
  /-- behind its bytes a file has zeros -/
  tail : ∀ j p, (liveEntry sb m.blocks j).numBytes.toNat ≤ p →
    p / blockSize < fileBlocks (liveEntry sb m.blocks j).numBytes.toNat →
    byteAt (liveEntry sb m.blocks j) m.blocks p = 0
  kind : ∀ j, InUse sb m.blocks j → (diskEntry sb m.blocks j).numLinks = 1 ∧
    (diskEntry sb m.blocks j).type = if j = rootInodeNo then inodeDirectory else inodeRegular
  outside : ∀ n < sb.dataStart, ¬ sb.InInodes n → m.blocks n = D n

namespace Image.Good

theorem inUse (h : m.Good sb D f) (hf : f i = some l) : InUse sb m.blocks i := by
  by_contra hnot
  have hnone : OsLab.files sb m.blocks i = none := if_neg hnot
  rw [h.files, hf] at hnone
  cases hnone

theorem content (h : m.Good sb D f) (hf : f i = some l) :
    l = OsLab.content (liveEntry sb m.blocks i) m.blocks := by
  have huse := h.inUse hf
  have hfile := files_of_inUse huse
  rw [h.files, hf] at hfile
  rw [liveEntry_of_inUse huse]
  exact Option.some.inj hfile

theorem length (h : m.Good sb D f) (hf : f i = some l) :
    (liveEntry sb m.blocks i).numBytes.toNat = l.length := by
  rw [h.content hf, length_content]

theorem card (h : m.Good sb D f) : (m.abs sb ∅).used.card = filesCost sb f := by
  rw [h.consistent.card_used_files]
  exact congrArg (filesCost sb) h.files

/-- The files that have been written fit. -/
theorem fitsDisk (h : m.Good sb D f) (hl : sb.Layout) : FitsDisk sb f where
  blocks := by
    have hcard := h.card
    have hstart := h.start
    have hle := h.le
    have hIco : (m.abs sb ∅).used.card = m.freeblock - sb.dataStart := Nat.card_Ico _ _
    have hblocks := hl.dataBlocks
    rw [SuperBlock.dataStart] at hIco hstart
    omega
  size i l hf := by
    have hmaps := (h.consistent.maps i).le
    change fileBlocks (liveEntry sb m.blocks i).numBytes.toNat ≤ inodeMaxBlocks at hmaps
    rw [h.length hf] at hmaps
    exact Nat.le_trans (le_fileBlocks _) (Nat.mul_le_mul_right _ hmaps)

/-- An inode has been updated: what is to be shown of the new one. -/
theorem update {D' : ℕ → BlockData} {e : InodeEntry} (h : m.Good sb D f) (ht : t.Sane sb)
    (hup : Updates sb (m.abs sb ∅) (liveEntry sb m.blocks) i (t.abs sb ∅) e) (hpos : 0 < i)
    (hi : i < sb.numInodes) (hcontent : OsLab.content e t.blocks = l)
    (htail : ∀ p, e.numBytes.toNat ≤ p → p / blockSize < fileBlocks e.numBytes.toNat →
      byteAt e t.blocks p = 0)
    (hkind : e.numLinks = 1 ∧ e.type = if i = rootInodeNo then inodeDirectory else inodeRegular)
    (hout : ∀ n < sb.dataStart, ¬ sb.InInodes n → t.blocks n = D' n) :
    t.Good sb D' (Function.update f i (some l)) := by
  have htype : e.type ≠ inodeInvalid := by
    rw [hkind.2]
    split <;> decide
  have hlive : ∀ j, liveEntry sb t.blocks j = if j = i then e else liveEntry sb m.blocks j := by
    intro j
    have := hup.liveEntry hpos hi j
    rwa [if_pos htype] at this
  have hfiles := h.consistent.files_update hup hpos hi
  have hcons := h.consistent.update hup hpos hi fun h0 => absurd h0 htype
  refine ⟨ht, hcons, ?_, fun j p hp hpb => ?_, fun j hj => ?_, hout⟩
  · rw [if_pos htype] at hfiles
    refine hfiles.trans ?_
    show Function.update (OsLab.files sb m.blocks) i (some (OsLab.content e t.blocks)) = _
    rw [h.files, hcontent]
  · rw [hlive] at hp hpb ⊢
    by_cases hji : j = i
    · rw [if_pos hji] at hp hpb ⊢
      exact htail p hp hpb
    · rw [if_neg hji] at hp hpb ⊢
      have hmaps := h.consistent.maps j
      have hne : blockOf (liveEntry sb m.blocks j) m.blocks (p / blockSize) ≠ 0 :=
        (hmaps.block _ (Nat.lt_of_lt_of_le hpb hmaps.le)).mpr hpb
      exact ((hup.others j hji).byteAt hne).trans (h.tail j p hp hpb)
  · have hdisk : diskEntry sb t.blocks j = _ := hup.disk j hj.2.1
    rw [hdisk]
    by_cases hji : j = i
    · rw [if_pos hji, hji]
      exact hkind
    · rw [if_neg hji]
      have huse := (hup.inUse_iff hpos hi (j := j)).mp hj
      rw [if_neg hji] at huse
      exact h.kind j huse

end Image.Good

/-- **`ialloc`** makes the next inode an empty file. -/
theorem wp_ialloc {type : UInt16} {Q : ℕ → Image → Prop} {E : Stop → Prop} (hl : sb.Layout)
    (h : m.Good sb D f) (hpos : 0 < m.freeinode) (hi : m.freeinode < sb.numInodes)
    (hnone : f m.freeinode = none)
    (htype : type = if m.freeinode = rootInodeNo then inodeDirectory else inodeRegular)
    (hQ : ∀ t : Image, t.freeinode = m.freeinode + 1 →
      t.Good sb D (Function.update f m.freeinode (some [])) → Q m.freeinode t) :
    wp (ialloc sb type) Q E m := by
  set i := m.freeinode with hieq
  set m' : Image := { m with freeinode := i + 1 } with hm'
  have h' : m'.Good sb D f := ⟨⟨h.sectors, h.start, h.le, h.blank⟩, h.consistent, h.files, h.tail,
    h.kind, h.outside⟩
  set e : InodeEntry := { InodeEntry.zero with type := type, numLinks := 1, numBytes := 0 } with he
  simp only [ialloc, xshort_eq, xint_eq, wp_bind, wp_nextInode, wp_pure]
  refine (wp_winode hl h'.toSane hi).mpr (hQ _ rfl ?_)
  have hnot : ¬ InUse sb m.blocks i := by
    intro huse
    have hfile := files_of_inUse huse
    rw [h.files, hnone] at hfile
    cases hfile
  have hblock : ∀ v k, blockOf e v k = 0 := fun v k => MapCache.blockOf_blank type v k
  have hzero : fileBlocks e.numBytes.toNat = 0 := by
    show fileBlocks (0 : UInt32).toNat = 0
    decide
  have hmaps : ∀ v, Maps e v (fileBlocks e.numBytes.toNat) := fun v => by
    rw [hzero]
    exact ⟨Nat.zero_le _, fun k _ => by simp [hblock], by simp [he, InodeEntry.zero]⟩
  have hlive : liveEntry sb m.blocks i = .zero := if_neg hnot
  have hsane : (m'.setEntry sb i e).Sane sb := h'.toSane.setEntry hl hi
  have hup : Updates sb (m'.abs sb ∅) (liveEntry sb m'.blocks) i
      ((m'.setEntry sb i e).abs sb ∅) e := by
    refine MapCache.updates_setEntry hl hi (h'.toSane.at hl) (h.consistent.owns.congr fun x => ?_)
      (hmaps _) rfl (fun _ _ _ => rfl) fun _ _ => .refl _ _
    rw [slots_update]
    split
    · rename_i hx
      rw [hblock, slots, hx]
      show 0 = blockOf (liveEntry sb m.blocks i) m.blocks x.2
      rw [hlive]
      exact (MapCache.blockOf_blank 0 _ _).symm
    · rfl
  refine h'.update hsane hup hpos hi rfl (fun p _ hp => ?_) ⟨rfl, htype⟩ fun n hn hout => ?_
  · rw [hzero] at hp
    exact absurd hp (Nat.not_lt_zero _)
  · rw [blocks_setEntry hl hi hout]
    exact h.outside n hn hout

/-- The loop of `iappend` has written `p` behind the bytes `l` of inode `i`; its entry `e` is
still to be written. -/
structure Appends (sb : SuperBlock) (m : Image) (i : ℕ) (l p : List UInt8) (t : Image)
    (e : InodeEntry) : Prop where
  sane : t.Sane sb
  frame : ∀ n < sb.dataStart, t.blocks n = m.blocks n
  writing : MapCache.Writing sb (m.abs sb ∅) (liveEntry sb m.blocks) i (fun j => p.getD j 0)
    l.length (fileBlocks (l.length + p.length) * blockSize - l.length) (t.abs sb ∅) e

namespace Appends

variable {p : List UInt8} {e e' : InodeEntry}

/-- What has been written is the rest of the last block. -/
theorem size (hlen : (liveEntry sb m.blocks i).numBytes.toNat = l.length) :
    max (liveEntry sb m.blocks i).numBytes.toNat
      (l.length + (fileBlocks (l.length + p.length) * blockSize - l.length))
      = fileBlocks (l.length + p.length) * blockSize := by
  have hle : l.length ≤ fileBlocks (l.length + p.length) * blockSize :=
    Nat.le_trans (Nat.le_add_right _ _) (le_fileBlocks _)
  rw [hlen, Nat.add_sub_of_le hle]
  exact Nat.max_eq_right hle

theorem maps (h : Appends sb m i l p t e)
    (hlen : (liveEntry sb m.blocks i).numBytes.toNat = l.length) :
    Maps e t.blocks (fileBlocks (l.length + p.length)) := by
  have hmaps := h.writing.maps
  rwa [size hlen, fileBlocks_full] at hmaps

/-- The bytes up to the end of the last block, when the entry has been written. -/
theorem byteAt (h : Appends sb m i l p t e) (hl : sb.Layout) (hi : i < sb.numInodes)
    (hlen : (liveEntry sb m.blocks i).numBytes.toNat = l.length) {q : ℕ}
    (hq : q / blockSize < fileBlocks (l.length + p.length)) :
    OsLab.byteAt e (t.setEntry sb i e').blocks q
      = if l.length ≤ q then p.getD (q - l.length) 0
        else OsLab.byteAt (liveEntry sb m.blocks i) m.blocks q := by
  have hmaps := h.maps hlen
  have hlt : q < fileBlocks (l.length + p.length) * blockSize := by
    simp only [blockSize] at hq ⊢
    omega
  have hle : l.length ≤ fileBlocks (l.length + p.length) * blockSize :=
    Nat.le_trans (Nat.le_add_right _ _) (le_fileBlocks _)
  have hne : blockOf e t.blocks (q / blockSize) ≠ 0 :=
    (hmaps.block _ (Nat.lt_of_lt_of_le hq hmaps.le)).mpr hq
  have hund : Undisturbed t.blocks (t.setEntry sb i e').blocks e := by
    refine undisturbed_of_view fun k hk => ?_
    have hmem := ownsBlocks_of_owns h.writing.owns k hk
    exact view_setEntry_of_inData (A := t.abs sb ∅) hl hi (h.sane.inData hmem)
  have hcontent := h.writing.content q (by rw [size hlen]; exact hlt)
  have hiff : l.length ≤ q ∧
      q < l.length + (fileBlocks (l.length + p.length) * blockSize - l.length)
      ↔ l.length ≤ q := by
    rw [Nat.add_sub_of_le hle]
    exact and_iff_left hlt
  simp only [hiff] at hcontent
  exact (hund.byteAt hne).trans hcontent

end Appends

/-- The entry is written, with the size. -/
theorem Image.Good.appended {p : List UInt8} {e : InodeEntry} (hl : sb.Layout) (h : m.Good sb D f)
    (hf : f i = some l) (hmax : l.length + p.length ≤ inodeMaxBytes)
    (hap : Appends sb m i l p t e) :
    (t.setEntry sb i { e with numBytes := .ofNat (l.length + p.length) }).Good sb D
      (Function.update f i (some (l ++ p))) := by
  have huse := h.inUse hf
  have hi := huse.2.1
  have hlen := h.length hf
  set n := l.length + p.length with hn
  set e' : InodeEntry := { e with numBytes := .ofNat n } with he'
  have hnat : e'.numBytes.toNat = n :=
    UInt32.toNat_ofNat_of_lt' (Nat.lt_of_le_of_lt hmax (by decide))
  have hmaps := hap.maps hlen
  have hbyte : ∀ q, q / blockSize < fileBlocks n → byteAt e' (t.setEntry sb i e').blocks q
      = if l.length ≤ q then p.getD (q - l.length) 0
        else byteAt (liveEntry sb m.blocks i) m.blocks q := fun q hq => hap.byteAt hl hi hlen hq
  have hdisk : ∀ j < sb.numInodes, diskEntry sb t.blocks j = diskEntry sb m.blocks j := fun j hj =>
    diskEntry_congr (A := m.abs sb ∅) (C := t.abs sb ∅) hl hap.writing.inodes hj
  have hup : Updates sb (m.abs sb ∅) (liveEntry sb m.blocks) i ((t.setEntry sb i e').abs sb ∅) e' :=
    MapCache.updates_setEntry hl hi (hap.sane.at hl)
      (hap.writing.owns.congr (slots_update_congr fun _ => rfl))
      (by rw [hnat]; exact ⟨hmaps.le, hmaps.block, hmaps.indirect⟩) hap.writing.held
      (fun j hj _ => hdisk j hj) hap.writing.others
  have hkind : e'.numLinks = (diskEntry sb m.blocks i).numLinks ∧
      e'.type = (diskEntry sb m.blocks i).type := by
    rw [← liveEntry_of_inUse huse, he', hap.writing.entry]
    exact ⟨rfl, rfl⟩
  refine h.update (hap.sane.setEntry hl hi) hup huse.1 hi ?_ (fun q hq hqb => ?_) ?_
    fun k hk hout => ?_
  · -- the old bytes, and then the new ones
    rw [OsLab.content, hnat, hn, List.range_add, List.map_append, List.map_map]
    congr 1
    · have hl' := h.content hf
      rw [OsLab.content, hlen] at hl'
      refine Eq.trans (List.map_congr_left fun q hq => ?_) hl'.symm
      have hq' := List.mem_range.mp hq
      rw [hbyte q (div_lt_fileBlocks (by omega)), if_neg (by omega)]
    · refine List.ext_getElem (by simp) fun q _ hq => ?_
      rw [List.getElem_map, List.getElem_range, Function.comp_apply,
        hbyte _ (div_lt_fileBlocks (by omega)), if_pos (Nat.le_add_right _ _),
        Nat.add_sub_cancel_left, List.getD_eq_getElem?_getD, List.getElem?_eq_getElem hq,
        Option.getD_some]
  · rw [hnat] at hq hqb
    rw [hbyte q hqb, if_pos (by omega), List.getD_eq_getElem?_getD,
      List.getElem?_eq_none (by omega), Option.getD_none]
  · rw [hkind.1, hkind.2]
    exact h.kind i huse
  · rw [blocks_setEntry hl hi hout, hap.frame k hk]
    exact h.outside k hk hout

/-- The rest of the last block of a file is zero. -/
theorem Image.Good.byte_tail (h : m.Good sb D f) (hf : f i = some l)
    (hlt : l.length < inodeMaxBytes) {j : ℕ} (hj : l.length % blockSize ≤ j)
    (hne : blockOf (liveEntry sb m.blocks i) m.blocks (l.length / blockSize) ≠ 0) :
    (m.blocks (blockOf (liveEntry sb m.blocks i) m.blocks (l.length / blockSize))).byte j = 0 := by
  have hlen := h.length hf
  have hmaps := h.consistent.maps i
  change Maps (liveEntry sb m.blocks i) m.blocks
    (fileBlocks (liveEntry sb m.blocks i).numBytes.toNat) at hmaps
  rw [hlen] at hmaps
  have hmapped : l.length / blockSize < fileBlocks l.length :=
    (hmaps.block _ (Nat.lt_of_lt_of_le (div_lt_fileBlocks hlt) (fileBlocks_le (Nat.le_refl _)))).mp
      hne
  by_cases hjlt : j < blockSize
  · have hdiv : (l.length / blockSize * blockSize + j) / blockSize = l.length / blockSize := by
      simp only [blockSize] at hjlt ⊢
      omega
    have hmod : (l.length / blockSize * blockSize + j) % blockSize = j := by
      simp only [blockSize] at hjlt ⊢
      omega
    have hle : l.length ≤ l.length / blockSize * blockSize + j := by
      simp only [blockSize] at hj ⊢
      omega
    have htail := h.tail i (l.length / blockSize * blockSize + j) (by rwa [hlen])
      (by rwa [hdiv, hlen])
    rwa [byteAt, hdiv, hmod] at htail
  · rw [BlockData.byte, dif_neg hjlt]

/-- **`iappend`** appends the bytes, exactly when the files fit then. -/
theorem wp_iappend {p : List UInt8} {Q : Unit → Image → Prop} {E : Stop → Prop} (hl : sb.Layout)
    (h : m.Good sb D f) (hf : f i = some l) (hp : p ≠ [])
    (hE : ∀ e, ¬ FitsDisk sb (Function.update f i (some (l ++ p))) → E e)
    (hQ : ∀ t : Image, t.freeinode = m.freeinode →
      t.Good sb D (Function.update f i (some (l ++ p))) → Q () t) :
    wp (iappend sb i p) Q E m := by
  have huse := h.inUse hf
  have hi := huse.2.1
  have hlen := h.length hf
  have hlive := liveEntry_of_inUse huse
  have hcost := filesCost_update (f := f) (l := l ++ p) hi
  rw [hf, Option.elim_some] at hcost
  simp only [iappend, xint_eq, wp_bind]
  rw [wp_rinode hl h.toSane hi, ← hlive, hlen]
  by_cases hmax : l.length + p.length ≤ inodeMaxBytes
  · have hpos := List.length_pos_iff.mpr hp
    have hstart : MapCache.Writing sb (m.abs sb ∅) (liveEntry sb m.blocks) i
        (fun j => p.getD j 0) l.length 0 (m.abs sb ∅) (liveEntry sb m.blocks i) :=
      MapCache.writing_zero h.consistent.owns (h.consistent.maps i) (Nat.le_of_eq hlen.symm)
    have hloop := wp_appendLoop hl rfl hlen hmax h.toSane hstart hpos (Nat.le_refl p.length)
      fun j hj hne => h.byte_tail hf (by omega) hj hne
    refine wp_mono hloop (fun r t hr => ?_) fun e he => hE e fun hfit => ?_
    · obtain ⟨hr1, ht, hfree, hframe, hw⟩ := hr
      rw [hr1]
      exact (wp_winode hl ht hi).mpr (hQ _ hfree (h.appended hl hf hmax ⟨ht, hframe, hw⟩))
    · -- the blocks were not enough
      have hblocks := hfit.blocks
      have hcard := h.card
      rw [hcard, ← List.length_append] at he
      omega
  · refine wp_mono (appendLoop_le hp (Nat.le_refl _)) (fun r t hr => ?_) fun e _ =>
      hE e fun hfit => ?_
    · omega
    · have := hfit.size i _ (Function.update_self _ _ _)
      rw [List.length_append] at this
      exact hmax this

/-! ### The files -/

/-- What the calls of `read` bring before one brings nothing. -/
def HostFile.bytes (file : HostFile) : List UInt8 :=
  ((file.reads.getD []).takeWhile (· ≠ [])).flatten

/-- The entries of the root directory. -/
def rootEntries (files : List HostFile) : List DirEntry :=
  [dirent rootInodeNo dotName, dirent rootInodeNo dotdotName] ++
    files.mapIdx fun k file => dirent (k + 2) file.name

/-- What `mkfs` makes of the files, before the size of the root directory is changed. -/
def filesOf (files : List HostFile) : Files := fun i =>
  if i = rootInodeNo then some (MapCache.dirBytes (rootEntries files))
  else if 2 ≤ i then files[i - 2]?.map HostFile.bytes
  else none

section Files

variable {files : List HostFile} {file : HostFile}

@[simp] theorem length_rootEntries : (rootEntries files).length = files.length + 2 := by
  rw [rootEntries, List.length_append, List.length_mapIdx, Nat.add_comm]
  rfl

theorem rootEntries_concat : rootEntries (files ++ [file])
    = rootEntries files ++ [dirent (files.length + 2) file.name] := by
  rw [rootEntries, rootEntries, List.mapIdx_concat, List.append_assoc]

theorem dirBytes_append (es es' : List DirEntry) :
    MapCache.dirBytes (es ++ es') = MapCache.dirBytes es ++ MapCache.dirBytes es' :=
  List.flatMap_append

theorem dirBytes_concat (es : List DirEntry) (e : DirEntry) :
    MapCache.dirBytes (es ++ [e]) = MapCache.dirBytes es ++ e.toBytes := by
  rw [dirBytes_append]
  exact congrArg (MapCache.dirBytes es ++ ·) (List.flatMap_singleton _ e)

theorem dirBytes_rootEntries_concat : MapCache.dirBytes (rootEntries (files ++ [file]))
    = MapCache.dirBytes (rootEntries files) ++ (dirent (files.length + 2) file.name).toBytes := by
  rw [rootEntries_concat, dirBytes_concat]

theorem toBytes_ne_nil (e : DirEntry) : e.toBytes ≠ [] := by
  intro h
  have hlen := e.length_toBytes
  rw [h] at hlen
  cases hlen

theorem add_two_ne_root (k : ℕ) : k + 2 ≠ rootInodeNo := by simp [rootInodeNo]

@[simp] theorem filesOf_root :
    filesOf files rootInodeNo = some (MapCache.dirBytes (rootEntries files)) := if_pos rfl

@[simp] theorem filesOf_add_two (k : ℕ) :
    filesOf files (k + 2) = files[k]?.map HostFile.bytes := by
  rw [filesOf, if_neg (add_two_ne_root k), if_pos (Nat.le_add_left _ _), Nat.add_sub_cancel]

/-- The files while the bytes of `file` are still to come. -/
def filesBefore (files : List HostFile) (file : HostFile) : Files :=
  Function.update (Function.update (filesOf files) (files.length + 2) (some [])) rootInodeNo
    (some (MapCache.dirBytes (rootEntries (files ++ [file]))))

theorem filesBefore_self : filesBefore files file (files.length + 2) = some [] := by
  rw [filesBefore, Function.update_of_ne (add_two_ne_root _), Function.update_self]

/-- One more file. -/
theorem filesOf_concat : filesOf (files ++ [file])
    = Function.update (filesBefore files file) (files.length + 2) (some file.bytes) := by
  funext i
  by_cases hi : i = files.length + 2
  · subst hi
    rw [Function.update_self, filesOf_add_two, List.getElem?_concat_length, Option.map_some]
  · rw [Function.update_of_ne hi, filesBefore]
    by_cases hroot : i = rootInodeNo
    · rw [hroot, Function.update_self, filesOf_root]
    · rw [Function.update_of_ne hroot, Function.update_of_ne hi, filesOf, filesOf, if_neg hroot,
        if_neg hroot]
      by_cases h2 : 2 ≤ i
      · rw [if_pos h2, if_pos h2]
        by_cases hlt : i - 2 < files.length
        · rw [List.getElem?_append_left hlt]
        · rw [List.getElem?_eq_none (by simp; omega), List.getElem?_eq_none (by omega)]
      · rw [if_neg h2, if_neg h2]

theorem shorter_filesBefore : Shorter (filesBefore files file) (filesOf (files ++ [file])) := by
  rw [filesOf_concat]
  refine shorter_update fun k hk => ?_
  rw [filesBefore_self] at hk
  rw [← Option.some.inj hk]
  exact Nat.zero_le _

/-- With more files the root directory is longer. -/
theorem shorter_filesOf_append (rest : List HostFile) :
    Shorter (filesOf files) (filesOf (files ++ rest)) := by
  intro i l hl
  rw [filesOf] at hl ⊢
  by_cases hroot : i = rootInodeNo
  · rw [if_pos hroot] at hl ⊢
    refine ⟨_, rfl, ?_⟩
    rw [← Option.some.inj hl, MapCache.length_dirBytes, MapCache.length_dirBytes,
      length_rootEntries, length_rootEntries, List.length_append]
    exact Nat.mul_le_mul_right _ (by omega)
  · rw [if_neg hroot] at hl ⊢
    by_cases h2 : 2 ≤ i
    · rw [if_pos h2] at hl ⊢
      obtain ⟨file, hfile, rfl⟩ := Option.map_eq_some_iff.mp hl
      have hlt := (List.getElem?_eq_some_iff.mp hfile).1
      rw [List.getElem?_append_left hlt, hfile]
      exact ⟨_, rfl, Nat.le_refl _⟩
    · rw [if_neg h2] at hl
      cases hl

/-- The last part of a path has no `'/'`. -/
theorem slash_notMem_baseName (path : List UInt8) : slash ∉ baseName path := by
  have hinv : ∀ path : List UInt8, lastPart path ≤ path.length ∧ slash ∉ baseName path := by
    intro path
    induction path using List.reverseRecOn with
    | nil => simp [lastPart, baseName]
    | append_singleton path c ih =>
      obtain ⟨hle, hnot⟩ := ih
      have hfold : lastPart (path ++ [c]) = if c = slash then 0 else lastPart path + 1 := by
        rw [lastPart, List.foldl_append]
        rfl
      by_cases hc : c = slash
      · rw [if_pos hc] at hfold
        rw [baseName, hfold, Nat.sub_zero, List.drop_length]
        exact ⟨Nat.zero_le _, List.not_mem_nil⟩
      · rw [if_neg hc] at hfold
        have hsub : (path ++ [c]).length - (lastPart path + 1) = path.length - lastPart path := by
          simp
        rw [baseName, hfold, hsub, List.drop_append_of_le_length (Nat.sub_le _ _)]
        refine ⟨by simp; omega, fun hmem => ?_⟩
        rcases List.mem_append.mp hmem with hmem | hmem
        · exact hnot hmem
        · exact hc (List.mem_singleton.mp hmem).symm
  exact (hinv path).2

end Files

/-- The bytes that are read from a file are appended. -/
theorem wp_appendReads {reads : List (List UInt8)} {Q : Unit → Image → Prop} {E : Stop → Prop}
    (hl : sb.Layout) (h : m.Good sb D f) (hf : f i = some l)
    (hE : ∀ e, ¬ FitsDisk sb
      (Function.update f i (some (l ++ (reads.takeWhile (· ≠ [])).flatten))) → E e)
    (hQ : ∀ t : Image, t.freeinode = m.freeinode → t.Good sb D
      (Function.update f i (some (l ++ (reads.takeWhile (· ≠ [])).flatten))) → Q () t) :
    wp (appendReads sb i reads) Q E m := by
  have hself : Function.update f i (some (l ++ [])) = f := by
    rw [List.append_nil, ← hf, Function.update_eq_self]
  induction reads generalizing m f l with
  | nil =>
    rw [List.takeWhile_nil, List.flatten_nil, hself] at hQ
    exact hQ m rfl h
  | cons buf rest ih =>
    rw [appendReads]
    by_cases hbuf : buf = []
    · rw [List.takeWhile_cons_of_neg (by simpa using hbuf), List.flatten_nil, hself] at hQ
      rw [if_pos hbuf]
      exact hQ m rfl h
    · rw [List.takeWhile_cons_of_pos (by simpa using hbuf), List.flatten_cons,
        ← List.append_assoc] at hQ hE
      have hshort : Shorter (Function.update f i (some (l ++ buf))) (Function.update f i
          (some (l ++ buf ++ (rest.takeWhile (· ≠ [])).flatten))) := by
        have hup := shorter_update (f := Function.update f i (some (l ++ buf))) (i := i)
          (l := l ++ buf ++ (rest.takeWhile (· ≠ [])).flatten) fun k hk => by
            rw [Function.update_self] at hk
            rw [← Option.some.inj hk]
            exact (List.prefix_append _ _).length_le
        rwa [Function.update_idem] at hup
      rw [if_neg hbuf, wp_bind]
      refine wp_iappend hl h hf hbuf (fun e hfit => hE e fun h' => hfit (h'.of_shorter hshort))
        fun t hfree ht => ?_
      refine ih ht (Function.update_self _ _ _) (fun e hfit => hE e ?_) (fun u hfreeu hu => hQ u
        (hfreeu.trans hfree) ?_) ?_
      · rwa [Function.update_idem] at hfit
      · rwa [Function.update_idem] at hu
      · rw [List.append_nil, Function.update_idem]

/-- Every file can be opened. -/
def AllOpen (files : List HostFile) : Prop := ∀ file ∈ files, file.reads ≠ none

/-- The image after the files `files`. -/
structure Image.Holds (sb : SuperBlock) (D : ℕ → BlockData) (m : Image) (files : List HostFile) :
    Prop where
  good : m.Good sb D (filesOf files)
  freeinode : m.freeinode = files.length + 2

/-- A pass of the loop of `main`: one more file. -/
theorem wp_addFile {files rest : List HostFile} {file : HostFile} {Q : Unit → Image → Prop}
    {E : Stop → Prop} (hl : sb.Layout) (h : m.Holds sb D files)
    (hlen : files.length + 2 < sb.numInodes)
    (hE : ∀ e, ¬ (FitsDisk sb (filesOf (files ++ file :: rest)) ∧ file.reads ≠ none) → E e)
    (hQ : ∀ t : Image, file.reads ≠ none → t.Holds sb D (files ++ [file]) → Q () t) :
    wp (addFile sb rootInodeNo file) Q E m := by
  have happ : files ++ file :: rest = (files ++ [file]) ++ rest := by simp
  have hfree := h.freeinode
  rw [addFile, wp_bind, wp_assert, if_pos (slash_notMem_baseName _)]
  cases hreads : file.reads with
  | none => exact hE _ fun h' => h'.2 hreads
  | some reads =>
    have hE' : ∀ {g : Files} (e : Stop), Shorter g (filesOf (files ++ [file])) →
        ¬ FitsDisk sb g → E e := by
      intro g e hshort hfit
      refine hE e fun h' => hfit (h'.1.of_shorter (hshort.trans ?_))
      rw [happ]
      exact shorter_filesOf_append rest
    have hnone : filesOf files (files.length + 2) = none := by
      rw [filesOf_add_two, List.getElem?_eq_none (Nat.le_refl _), Option.map_none]
    have hbytes : file.bytes = (reads.takeWhile (· ≠ [])).flatten := by
      rw [HostFile.bytes, hreads, Option.getD_some]
    dsimp only
    rw [wp_bind]
    refine wp_ialloc hl h.good (by omega) (by omega) (by rw [hfree]; exact hnone)
      (by rw [hfree, if_neg (add_two_ne_root _)]) fun t hfreet ht => ?_
    rw [hfree] at ht ⊢
    -- the entry for the file in the root directory
    have hroot : Function.update (filesOf files) (files.length + 2) (some []) rootInodeNo
        = some (MapCache.dirBytes (rootEntries files)) := by
      rw [Function.update_of_ne (add_two_ne_root _).symm, filesOf_root]
    rw [wp_bind]
    refine wp_iappend hl ht hroot (toBytes_ne_nil _) (fun e hfit => hE' e ?_ hfit)
      fun u hfreeu hu => ?_
    · rw [← dirBytes_rootEntries_concat]
      exact shorter_filesBefore
    · -- its bytes
      rw [← dirBytes_rootEntries_concat] at hu
      refine wp_appendReads hl hu filesBefore_self (fun e hfit => hE' e ?_ hfit)
        fun v hfreev hv => hQ v (by rw [hreads]; simp) ⟨?_, ?_⟩
      · rw [List.nil_append, ← hbytes]
        change Shorter (Function.update (filesBefore files file) _ _) _
        rw [← filesOf_concat]
        exact .refl _
      · rw [List.nil_append, ← hbytes] at hv
        change v.Good sb D (Function.update (filesBefore files file) _ _) at hv
        rwa [← filesOf_concat] at hv
      · rw [hfreev, hfreeu, hfreet, hfree, List.length_append, List.length_singleton]

/-- The loop of `main`. -/
theorem wp_addFiles {files rest : List HostFile} {Q : Unit → Image → Prop} {E : Stop → Prop}
    (hl : sb.Layout) (h : m.Holds sb D files) (hlen : (files ++ rest).length + 2 ≤ sb.numInodes)
    (hE : ∀ e, ¬ (FitsDisk sb (filesOf (files ++ rest)) ∧ AllOpen rest) → E e)
    (hQ : ∀ t : Image, AllOpen rest → t.Holds sb D (files ++ rest) → Q () t) :
    wp (addFiles sb rootInodeNo rest) Q E m := by
  induction rest generalizing files m with
  | nil =>
    rw [List.append_nil] at hQ
    exact hQ m (fun file hfile => absurd hfile List.not_mem_nil) h
  | cons file rest ih =>
    have happ : files ++ file :: rest = (files ++ [file]) ++ rest := by simp
    have hcons : AllOpen (file :: rest) ↔ file.reads ≠ none ∧ AllOpen rest := by
      simp [AllOpen]
    rw [addFiles, wp_bind]
    refine wp_addFile hl h (by simp at hlen; omega) (fun e hfit => hE e fun h' =>
      hfit ⟨h'.1, (hcons.mp h'.2).1⟩) fun t hopen ht => ?_
    refine ih ht (by rwa [← happ]) (fun e hfit => hE e fun h' => hfit ?_) fun u hopenu hu => ?_
    · rw [← happ]
      exact ⟨h'.1, (hcons.mp h'.2).2⟩
    · rw [← happ] at hu
      exact hQ u (hcons.mpr ⟨hopen, hopenu⟩) hu

end Mkfs

end OsLab
