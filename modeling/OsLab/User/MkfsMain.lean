/-
The image that `main` of `mkfs` ends with, and the file system that the kernel finds in it.

At the end `main` makes the size of the root directory a multiple of the size of a block,
and one block more when it is one already: then the last block is missing.

* `Image.Good.finish` — the files when the size needs no more blocks;
* `Image.Good.missing_block` — the missing block;
* `mkfs_ok_iff` — there is an image exactly when the files fit and can be opened.
-/
import OsLab.User.MkfsImage

namespace OsLab.Mkfs

open MapCache (dirBytes)

variable {sb : SuperBlock} {m t : Image} {D : ℕ → BlockData} {f : Files} {i : ℕ} {l : List UInt8}

/-! ### The empty image -/

/-- The image when the super block has been written. -/
def Image.blank : Image where
  sectors := fssize
  blocks := Function.update (fun _ => .fill 0) 0 (superBlockData .mkfs)
  freeinode := 1
  freeblock := nmeta

theorem blank_blocks {n : ℕ} (hn : 0 < n) : Image.blank.blocks n = .fill 0 := by
  show Function.update (fun _ => BlockData.fill 0) 0 (superBlockData .mkfs) n = _
  rw [Function.update_of_ne (Nat.ne_of_gt hn)]

theorem blank_inUse : ¬ InUse .mkfs Image.blank.blocks i := by
  rintro ⟨-, -, htype⟩
  have hpos : 0 < toBlockNo .mkfs i := Nat.lt_of_lt_of_le (by decide) (Nat.le_add_right _ _)
  have hzero : ∀ k < inodePerBlock, ((BlockData.fill 0).inodeEntry k).type = inodeInvalid := by
    decide +kernel
  rw [diskEntry, blank_blocks hpos] at htype
  exact htype (hzero _ (Nat.mod_lt _ (by decide)))

theorem good_blank : Image.blank.Good .mkfs Image.blank.blocks fun _ => none := by
  have hsane : Image.blank.Sane .mkfs := ⟨rfl, by decide, by decide, fun n hn =>
    blank_blocks (Nat.lt_of_lt_of_le (by decide) hn)⟩
  have hfs : (firstFitCache .mkfs SuperBlock.layout_mkfs).Empty
      ⟨Image.blank.abs .mkfs ∅, fun _ => none⟩ :=
    ⟨(hsane.at SuperBlock.layout_mkfs).1, rfl, Finset.Ico_self _, fun _ => rfl,
      fun i hi => absurd hi blank_inUse⟩
  refine ⟨hsane, hfs.inv.consistent, funext fun i => if_neg blank_inUse, fun j p _ hp => ?_,
    fun j hj => absurd hj blank_inUse, fun _ _ _ => rfl⟩
  have hlive : liveEntry .mkfs Image.blank.blocks j = .zero := if_neg blank_inUse
  have hzero : fileBlocks InodeEntry.zero.numBytes.toNat = 0 := by decide
  rw [hlive, hzero] at hp
  exact absurd hp (Nat.not_lt_zero _)

/-- The loop that writes zeros to the image. -/
theorem wp_zeroes (n b : ℕ) {Q : Unit → Image → Prop} {E : Stop → Prop} :
    wp (forUpTo n fun i => wsect i (.fill 0)) Q E ⟨0, fun _ => .fill 0, 1, b⟩
      ↔ Q () ⟨n, fun _ => .fill 0, 1, b⟩ := by
  induction n generalizing Q with
  | zero => rfl
  | succ n ih =>
    rw [forUpTo, wp_bind, ih, wsect, wp_modify, Function.update_eq_self]
    show Q () ⟨max n (n + 1), _, _, _⟩ ↔ _
    rw [Nat.max_eq_right (Nat.le_succ n)]

/-! ### The end of `main` -/

/-- The image when the size of inode `i` is `n`, and the bitmap is `d`. -/
def Image.finish (sb : SuperBlock) (m : Image) (i n : ℕ) (d : BlockData) : Image :=
  (m.setEntry sb i { diskEntry sb m.blocks i with numBytes := .ofNat n }).write sb.bitmapStart d

section Finish

variable {n : ℕ} {d : BlockData}

/-- The bitmap may as well be written first. -/
theorem write_setEntry {e : InodeEntry} (hl : sb.Layout) (hi : i < sb.numInodes) :
    (m.setEntry sb i e).write sb.bitmapStart d = (m.write sb.bitmapStart d).setEntry sb i e := by
  have hne : sb.bitmapStart ≠ toBlockNo sb i := Nat.ne_of_gt (hl.inInodes_toBlockNo hi).2
  have hsame : (m.write sb.bitmapStart d).blocks (toBlockNo sb i) = m.blocks (toBlockNo sb i) :=
    Function.update_of_ne hne.symm _ _
  rw [Image.setEntry, Image.setEntry, hsame]
  simp only [Image.write]
  rw [Function.update_comm hne]

theorem diskEntry_finish (hl : sb.Layout) (hi : i < sb.numInodes) :
    diskEntry sb (m.finish sb i n d).blocks i
      = { diskEntry sb m.blocks i with numBytes := .ofNat n } := by
  rw [Image.finish, write_setEntry hl hi]
  exact (diskEntry_setEntry (A := (m.write sb.bitmapStart d).abs sb ∅)).trans (if_pos rfl)

/-- A file with zeros at its end. -/
theorem content_append_zeroes {e : InodeEntry} {v : ℕ → BlockData} (hn : e.numBytes.toNat = n)
    (hle : l.length ≤ n) (hl : ∀ p (hp : p < l.length), byteAt e v p = l[p])
    (hzero : ∀ p, l.length ≤ p → p < n → byteAt e v p = 0) :
    content e v = l ++ List.replicate (n - l.length) 0 := by
  refine List.ext_getElem ?_ fun p hp _ => ?_
  · rw [length_content, hn, List.length_append, List.length_replicate, Nat.add_sub_of_le hle]
  · rw [length_content, hn] at hp
    simp only [content, List.getElem_map, List.getElem_range]
    by_cases hlt : p < l.length
    · rw [List.getElem_append_left hlt, hl p hlt]
    · rw [List.getElem_append_right (by omega), List.getElem_replicate, hzero p (by omega) hp]

namespace Image.Good

/-- The bytes of a file. -/
theorem byteAt (h : m.Good sb D f) (hf : f i = some l) {p : ℕ} (hp : p < l.length) :
    OsLab.byteAt (liveEntry sb m.blocks i) m.blocks p = l[p] := by
  have hlist := h.content hf
  have hlen := h.length hf
  have hget : l[p]? = some (OsLab.byteAt (liveEntry sb m.blocks i) m.blocks p) := by
    conv_lhs => rw [hlist]
    rw [OsLab.content, hlen, List.getElem?_map, List.getElem?_range hp, Option.map_some]
  rw [List.getElem?_eq_getElem hp] at hget
  exact (Option.some.inj hget).symm

/-- A file does not change with blocks that are not in use. -/
theorem undisturbed (h : m.Good sb D f) {v : ℕ → BlockData}
    (hv : ∀ k, sb.InData k → v k = m.blocks k) (j : ℕ) :
    Undisturbed m.blocks v (liveEntry sb m.blocks j) :=
  undisturbed_of_view fun k hk =>
    hv _ (h.toSane.inData (h.consistent.owns.mem_used (k := (j, k)) hk))

theorem maps (h : m.Good sb D f) (hf : f i = some l) :
    Maps (liveEntry sb m.blocks i) m.blocks (fileBlocks l.length) := by
  have hmaps : Maps (liveEntry sb m.blocks i) m.blocks
    (fileBlocks (liveEntry sb m.blocks i).numBytes.toNat) := h.consistent.maps i
  rwa [h.length hf] at hmaps

/-- The entry of inode `i` at the end. -/
theorem updates_finish (h : m.Good sb D f) (hl : sb.Layout) (hf : f i = some l)
    (hn : n < 2 ^ 32) (hblocks : fileBlocks n = fileBlocks l.length) :
    Updates sb (m.abs sb ∅) (liveEntry sb m.blocks) i ((m.finish sb i n d).abs sb ∅)
      { diskEntry sb m.blocks i with numBytes := .ofNat n } := by
  have huse := h.inUse hf
  have hi := huse.2.1
  have hlive := liveEntry_of_inUse huse
  set e : InodeEntry := { diskEntry sb m.blocks i with numBytes := .ofNat n } with he
  have hnat : e.numBytes.toNat = n := by
    exact UInt32.toNat_ofNat_of_lt' hn
  have hsane : (m.write sb.bitmapStart d).Sane sb :=
    h.toSane.write (Nat.lt_of_lt_of_le hl.bitmapStart_lt_dataStart h.start) d
  have hview : ∀ k, sb.InData k → (m.write sb.bitmapStart d).blocks k = m.blocks k :=
    fun k hk => Function.update_of_ne (Nat.ne_of_gt (hl.bitmapStart_lt hk)) _ _
  have hdisk : ∀ j < sb.numInodes,
      diskEntry sb (m.write sb.bitmapStart d).blocks j = diskEntry sb m.blocks j := fun j hj => by
    rw [diskEntry, diskEntry]
    congr 1
    exact Function.update_of_ne (Nat.ne_of_lt (hl.inInodes_toBlockNo hj).2) _ _
  have howns : Owns (slots (Function.update (liveEntry sb m.blocks) i e) m.blocks)
      (m.abs sb ∅).used := h.consistent.owns.congr fun x => by
    rw [slots_update]
    split
    · rename_i hx
      rw [slots, hx]
      show _ = blockOf (liveEntry sb m.blocks i) m.blocks x.2
      rw [hlive]
      rfl
    · rfl
  have hmaps := (h.undisturbed hview i).maps (h.maps hf)
  rw [hlive] at hmaps
  rw [Image.finish, write_setEntry hl hi]
  refine MapCache.updates_setEntry hl hi (hsane.at hl)
    (howns.congr fun x => slots_congr howns (fun k hk => hview k (h.toSane.inData hk)) x) ?_ rfl
    (fun j hj _ => hdisk j hj) fun j _ => h.undisturbed hview j
  rw [hnat, hblocks]
  exact ⟨hmaps.le, hmaps.block, hmaps.indirect⟩

theorem blocks_finish (hl : sb.Layout) (hi : i < sb.numInodes) {k : ℕ} (hk : ¬ sb.InInodes k) :
    (m.finish sb i n d).blocks k = Function.update m.blocks sb.bitmapStart d k := by
  by_cases heq : k = sb.bitmapStart
  · rw [heq, Function.update_self]
    exact Function.update_self _ _ _
  · rw [Function.update_of_ne heq]
    exact (Function.update_of_ne heq _ _).trans (blocks_setEntry hl hi hk)

theorem blocks_finish_inData (hl : sb.Layout) (hi : i < sb.numInodes) {k : ℕ} (hk : sb.InData k) :
    (m.finish sb i n d).blocks k = m.blocks k := by
  rw [blocks_finish hl hi (hl.not_inInodes hk),
    Function.update_of_ne (Nat.ne_of_gt (hl.bitmapStart_lt hk))]

/-- The file at the end. -/
theorem finish (h : m.Good sb D f) (hl : sb.Layout) (hf : f i = some l) (hle : l.length ≤ n)
    (hn : n < 2 ^ 32) (hblocks : fileBlocks n = fileBlocks l.length) :
    (m.finish sb i n d).Good sb (Function.update D sb.bitmapStart d)
      (Function.update f i (some (l ++ List.replicate (n - l.length) 0))) := by
  have huse := h.inUse hf
  have hi := huse.2.1
  have hlive := liveEntry_of_inUse huse
  set e : InodeEntry := { diskEntry sb m.blocks i with numBytes := .ofNat n } with he
  have hnat : e.numBytes.toNat = n := UInt32.toNat_ofNat_of_lt' hn
  have hview : ∀ k, sb.InData k → (m.finish sb i n d).blocks k = m.blocks k := fun _ hk =>
    blocks_finish_inData hl hi hk
  have hbyte : ∀ p, p / blockSize < fileBlocks l.length →
      OsLab.byteAt e (m.finish sb i n d).blocks p
        = OsLab.byteAt (liveEntry sb m.blocks i) m.blocks p := by
    intro p hp
    have hmaps := h.maps hf
    have hne := (hmaps.block _ (Nat.lt_of_lt_of_le hp hmaps.le)).mpr hp
    rw [← (h.undisturbed hview i).byteAt hne, hlive]
    rfl
  have htail : ∀ p, l.length ≤ p → p / blockSize < fileBlocks l.length →
      OsLab.byteAt e (m.finish sb i n d).blocks p = 0 := fun p hp hpb => by
    rw [hbyte p hpb]
    exact h.tail i p (by rwa [h.length hf]) (by rwa [h.length hf])
  have hsane : (m.finish sb i n d).Sane sb :=
    (h.toSane.setEntry hl hi).write (Nat.lt_of_lt_of_le hl.bitmapStart_lt_dataStart h.start) d
  refine h.update hsane (h.updates_finish hl hf hn hblocks) huse.1 hi ?_ (fun p hp hpb => ?_)
    (h.kind i huse) fun k hk hout => ?_
  · refine content_append_zeroes hnat hle (fun p hp => ?_) fun p hp hlt => htail p hp ?_
    · rw [hbyte p (div_lt_fileBlocks hp), ← h.byteAt hf hp]
    · rw [← hblocks]
      exact div_lt_fileBlocks hlt
  · rw [hnat] at hp hpb
    exact htail p (Nat.le_trans hle hp) (hblocks ▸ hpb)
  · rw [blocks_finish hl hi hout]
    by_cases heq : k = sb.bitmapStart
    · rw [heq, Function.update_self, Function.update_self]
    · rw [Function.update_of_ne heq, Function.update_of_ne heq, h.outside k hk hout]

/-- **It is a file system** when the bits in front of `freeblock` are set. -/
theorem holdsFs (h : m.Good sb D f)
    (hbits : ∀ k < sb.numBlocks, bitOf sb m.blocks k = decide (k < m.freeblock)) :
    HoldsFs sb m.blocks := by
  have hused : BlockStore.used sb ⟨m.blocks, ∅⟩ = (m.abs sb ∅).used := by
    ext k
    rw [BlockStore.mem_used]
    refine Iff.trans ?_ Finset.mem_Ico.symm
    have hle := h.le
    constructor
    · rintro ⟨hk, hbit⟩
      rw [hbits k hk.2, decide_eq_true_eq] at hbit
      exact ⟨hk.1, hbit⟩
    · rintro ⟨hstart, hlt⟩
      have hk := Nat.lt_of_lt_of_le hlt hle
      exact ⟨⟨hstart, hk⟩, by rw [hbits k hk, decide_eq_true hlt]⟩
  refine ⟨fun k hk => ?_, ?_⟩
  · have hlt := Nat.lt_of_lt_of_le hk h.start
    rw [hbits k (Nat.lt_of_lt_of_le hlt h.le), decide_eq_true hlt]
  · rw [BlockStore.abs, hused]
    exact h.consistent

/-- With a size that needs more blocks, the next block is missing. -/
theorem missing_block (h : m.Good sb D f) (hl : sb.Layout) (hf : f i = some l) (hn : n < 2 ^ 32)
    (hlt : fileBlocks l.length < fileBlocks n) (hmax : fileBlocks l.length < inodeMaxBlocks) :
    fileBlocks l.length * blockSize < (liveEntry sb (m.finish sb i n d).blocks i).numBytes.toNat ∧
    blockOf (liveEntry sb (m.finish sb i n d).blocks i) (m.finish sb i n d).blocks
      (fileBlocks l.length) = 0 := by
  have huse := h.inUse hf
  have hi := huse.2.1
  have hlive := liveEntry_of_inUse huse
  have hdisk := diskEntry_finish (m := m) (n := n) (d := d) hl hi
  have huse' : InUse sb (m.finish sb i n d).blocks i := by
    refine ⟨huse.1, hi, ?_⟩
    rw [hdisk]
    exact huse.2.2
  have hnat : (UInt32.ofNat n).toNat = n := UInt32.toNat_ofNat_of_lt' hn
  rw [liveEntry_of_inUse huse', hdisk]
  constructor
  · rw [hnat]
    by_contra hle
    have hsmall : fileBlocks n ≤ fileBlocks (fileBlocks l.length * blockSize) :=
      MapCache.fileBlocks_mono (Nat.not_lt.mp hle)
    rw [fileBlocks_full] at hsmall
    omega
  · have hund := (h.undisturbed (v := (m.finish sb i n d).blocks)
      (fun _ hk => blocks_finish_inData hl hi hk) i (fileBlocks l.length)).1
    have hnot := mt ((h.maps hf).block _ hmax).mp (Nat.lt_irrefl _)
    rw [not_not, ← hund, hlive] at hnot
    exact hnot

end Image.Good

/-- `buf` after the loop of `balloc` -/
abbrev usedBits (used : ℕ) : BlockData := (List.range used).foldl BlockData.setBit (.fill 0)

theorem bit_usedBits {used j : ℕ} (hj : j < bitPerBlock) :
    (usedBits used).bit j = decide (j < used) := by
  induction used with
  | zero =>
    have hlt : j / 8 < blockSize := by
      simp only [bitPerBlock, blockSize] at *
      omega
    show (BlockData.fill 0).bit j = false
    rw [BlockData.bit_eq, BlockData.byte_fill _ hlt]
    simp
  | succ used ih =>
    rw [usedBits, List.range_succ, List.foldl_append]
    show ((usedBits used).setBit used).bit j = _
    rw [BlockData.bit_setBit _ hj, ih, ← Bool.decide_or]
    exact decide_eq_decide.mpr (by omega)

/-- The bits at the end. -/
theorem bitOf_finish {used k : ℕ} (hl : sb.Layout) (hi : i < sb.numInodes) (hk : k < bitPerBlock) :
    bitOf sb (m.finish sb i n (usedBits used)).blocks k = decide (k < used) := by
  have hnot : ¬ sb.InInodes sb.bitmapStart := fun h => absurd h.2 (Nat.lt_irrefl _)
  rw [bitOf, Nat.div_eq_of_lt hk, Nat.add_zero, Nat.mod_eq_of_lt hk,
    Image.Good.blocks_finish hl hi hnot, Function.update_self, bit_usedBits hk]

end Finish

/-! ### `main` -/

/-- The size of the root directory with `n` entries, as `main` leaves it. -/
def rootSize (n : ℕ) : ℕ := (n * sizeofDirEntry / blockSize + 1) * blockSize

section Main

variable {files : List HostFile} {Q : Unit → Image → Prop} {E : Stop → Prop}

/-- The root directory without files. -/
theorem filesOf_nil : filesOf [] = Function.update (fun _ => none) rootInodeNo
    (some (dirBytes [dirent rootInodeNo dotName, dirent rootInodeNo dotdotName])) := by
  funext i
  by_cases hi : i = rootInodeNo
  · rw [hi, Function.update_self, filesOf_root]
    rfl
  · rw [Function.update_of_ne hi, filesOf, if_neg hi]
    split <;> rfl

/-- The root directory is made. -/
theorem wp_root {k : ℕ → MkfsM Unit} (hE : ∀ e, ¬ FitsDisk .mkfs (filesOf files) → E e)
    (hQ : ∀ t : Image, t.Holds .mkfs Image.blank.blocks [] → wp (k rootInodeNo) Q E t) :
    wp (do
      let rootino ← ialloc .mkfs inodeDirectory
      assert (rootino = rootInodeNo)
      iappend .mkfs rootino (dirent rootino dotName).toBytes
      iappend .mkfs rootino (dirent rootino dotdotName).toBytes
      k rootino : MkfsM Unit) Q E Image.blank := by
  have hl := SuperBlock.layout_mkfs
  set g : Files := Function.update (fun _ => none) rootInodeNo (some []) with hg
  set dot := (dirent rootInodeNo dotName).toBytes with hdot
  set dotdot := (dirent rootInodeNo dotdotName).toBytes with hdotdot
  have hg1 : Function.update g rootInodeNo (some ([] ++ dot))
      = Function.update (fun _ => none) rootInodeNo (some dot) := by
    rw [hg, Function.update_idem, List.nil_append]
  have hg2 : Function.update (Function.update g rootInodeNo (some ([] ++ dot))) rootInodeNo
      (some (dot ++ dotdot)) = filesOf [] := by
    rw [hg1, Function.update_idem, filesOf_nil]
    rfl
  have hE2 : ∀ e, ¬ FitsDisk .mkfs (filesOf []) → E e := fun e hfit => hE e fun h =>
    hfit (h.of_shorter (shorter_filesOf_append files))
  have hE1 : ∀ e, ¬ FitsDisk .mkfs (Function.update g rootInodeNo (some ([] ++ dot))) → E e := by
    refine fun e hfit => hE2 e fun h => hfit (h.of_shorter ?_)
    rw [← hg2]
    refine shorter_update fun k hk => ?_
    rw [Function.update_self, List.nil_append] at hk
    rw [← Option.some.inj hk]
    exact (List.prefix_append _ _).length_le
  rw [wp_bind]
  refine wp_ialloc hl good_blank Nat.one_pos (by decide) rfl rfl fun t hfree ht => ?_
  have hroot : Image.blank.freeinode = rootInodeNo := rfl
  rw [hroot] at hfree ht ⊢
  rw [wp_bind, wp_assert, if_pos rfl, wp_bind]
  refine wp_iappend hl ht (Function.update_self _ _ _) (toBytes_ne_nil _) hE1 fun u hfreeu hu => ?_
  rw [wp_bind]
  refine wp_iappend hl hu (l := dot) ?_ (toBytes_ne_nil _) (fun e hfit => hE2 e ?_)
    fun v hfreev hv => hQ v ⟨?_, ?_⟩
  · rw [Function.update_self, List.nil_append]
  · rwa [← hg2]
  · rwa [← hg2]
  · rw [hfreev, hfreeu, hfree]
    rfl

/-- The image at the end of `main`. -/
abbrev Image.ended (m : Image) (files : List HostFile) : Image :=
  m.finish .mkfs rootInodeNo (rootSize (files.length + 2)) (usedBits m.freeblock)

theorem wp_main (hlen : files.length + 2 ≤ ninodes)
    (hE : ∀ e, ¬ (FitsDisk .mkfs (filesOf files) ∧ AllOpen files) → E e)
    (hQ : ∀ m : Image, AllOpen files → m.Holds .mkfs Image.blank.blocks files →
      Q () (m.ended files)) :
    wp (main files) Q E ⟨0, fun _ => .fill 0, 1, 0⟩ := by
  have hl := SuperBlock.layout_mkfs
  rw [main, wp_bind, wp_modify, wp_bind, wp_zeroes, wp_bind, wp_wsect (by decide)]
  refine wp_root (fun e hfit => hE e fun h => hfit h.1) fun t ht => ?_
  rw [wp_bind]
  refine wp_addFiles hl ht (by rwa [List.nil_append]) hE fun m hopen hm => ?_
  rw [List.nil_append] at hm
  have huse := hm.good.inUse filesOf_root
  have hlength := hm.good.length filesOf_root
  rw [MapCache.length_dirBytes, length_rootEntries] at hlength
  have hi : rootInodeNo < SuperBlock.mkfs.numInodes := by decide
  rw [wp_bind, wp_rinode hl hm.good.toSane hi]
  simp only [xint_eq]
  rw [wp_bind, wp_winode hl hm.good.toSane hi]
  rw [liveEntry_of_inUse huse] at hlength
  rw [hlength, wp_bind, wp_get, balloc, wp_bind, wp_assert, if_pos ?_, wp_wsect ?_]
  · exact hQ m hopen hm
  · have hsectors := hm.good.sectors
    show SuperBlock.mkfs.bitmapStart < m.sectors
    rw [hsectors]
    decide
  · exact Nat.lt_of_le_of_lt hm.good.le (by decide)

-- nothing below looks into the loops of `main`
attribute [local irreducible] main

/-- A run of `mkfs`, from the rule for its `main`. -/
theorem mkfs_of_wp {P : Image → Prop}
    (h : wp (main files) (fun _ t => P t) E ⟨0, fun _ => .fill 0, 1, 0⟩) :
    (∀ t, mkfs files = .ok t → P t) ∧ ∀ e, mkfs files = .error e → E e := by
  unfold mkfs
  unfold wp at h
  generalize (main files).run _ = r at h ⊢
  cases r with
  | error e =>
    constructor
    · intro t ht
      cases ht
    · intro e' he
      cases he
      exact h
  | ok r =>
    constructor
    · intro t ht
      cases ht
      exact h
    · intro e he
      cases he

/-- What the image is, when there is one; there is none only when the files do not fit or
cannot be opened. -/
theorem mkfs_spec (hlen : files.length + 2 ≤ ninodes) :
    (∀ t, mkfs files = .ok t → AllOpen files ∧
      ∃ m : Image, m.Holds .mkfs Image.blank.blocks files ∧ t = m.ended files) ∧
    ∀ e, mkfs files = .error e → ¬ (FitsDisk .mkfs (filesOf files) ∧ AllOpen files) :=
  mkfs_of_wp (E := fun _ => ¬ (FitsDisk .mkfs (filesOf files) ∧ AllOpen files))
    (wp_main hlen (fun _ he => he) fun m hopen hm => ⟨hopen, m, hm, rfl⟩)

theorem holds_of_mkfs (hlen : files.length + 2 ≤ ninodes) (h : mkfs files = .ok t) :
    ∃ m : Image, m.Holds .mkfs Image.blank.blocks files ∧ t = m.ended files :=
  ((mkfs_spec hlen).1 t h).2

/-- **`mkfs` accepts the files** exactly when they fit on the disk and can be opened. -/
theorem mkfs_ok_iff (hlen : files.length + 2 ≤ ninodes) :
    (∃ t, mkfs files = .ok t) ↔ FitsDisk .mkfs (filesOf files) ∧ AllOpen files := by
  constructor
  · rintro ⟨t, h⟩
    obtain ⟨hopen, m, hm, -⟩ := (mkfs_spec hlen).1 t h
    exact ⟨hm.good.fitsDisk SuperBlock.layout_mkfs, hopen⟩
  · intro hfits
    cases h : mkfs files with
    | ok t => exact ⟨t, rfl⟩
    | error e => exact absurd hfits ((mkfs_spec hlen).2 e h)

end Main

end OsLab.Mkfs
