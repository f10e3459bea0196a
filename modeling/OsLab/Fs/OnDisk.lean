/-
The on-disk inodes, indirect blocks and bitmaps (`fs/defines.h`).

An inode block holds `inodePerBlock` entries of 64 bytes, an indirect block
`inodeNumIndirect` block numbers of 4 bytes, and a bitmap block one bit for each
of `bitPerBlock` blocks.  For each there is a function that reads a field of the
block and one that stores it, and the lemmas say that a store is read back and
leaves the other fields alone:

* `inodeEntry_setInodeEntry`;
* `addr_setAddr`;
* `bit_setBit`, `bit_clearBit`.
-/
import OsLab.Fs.Defines

namespace OsLab

/-- `sizeof(InodeEntry)` -/
abbrev sizeofInodeEntry : ℕ := 64

/-- `INODE_NUM_DIRECT` -/
abbrev inodeNumDirect : ℕ := 12

/-- `INODE_NUM_INDIRECT` -/
abbrev inodeNumIndirect : ℕ := blockSize / 4

/-- `INODE_PER_BLOCK` -/
abbrev inodePerBlock : ℕ := blockSize / sizeofInodeEntry

/-- `INODE_MAX_BLOCKS` -/
abbrev inodeMaxBlocks : ℕ := inodeNumDirect + inodeNumIndirect

/-- `INODE_MAX_BYTES` -/
abbrev inodeMaxBytes : ℕ := inodeMaxBlocks * blockSize

/-- `BIT_PER_BLOCK` -/
abbrev bitPerBlock : ℕ := blockSize * 8

/-- `INODE_INVALID` -/
abbrev inodeInvalid : UInt16 := 0

/-- `InodeEntry` -/
@[ext] structure InodeEntry where
  type : UInt16
  /-- major device id, for `INODE_DEVICE` only -/
  major : UInt16
  /-- minor device id, for `INODE_DEVICE` only -/
  minor : UInt16
  /-- number of hard links to this inode in the filesystem -/
  numLinks : UInt16
  /-- number of bytes in the file, i.e. the size of file -/
  numBytes : UInt32
  /-- direct addresses/block numbers -/
  addrs : Fin inodeNumDirect → UInt32
  /-- the indirect address block -/
  indirect : UInt32

namespace InodeEntry

/-- The entry after `memset(entry, 0, sizeof(InodeEntry))`. -/
def zero : InodeEntry := ⟨0, 0, 0, 0, 0, fun _ => 0, 0⟩

/-- `addrs[i]`, for an index inside the array -/
def addr (e : InodeEntry) (i : ℕ) : UInt32 :=
  if h : i < inodeNumDirect then e.addrs ⟨i, h⟩ else 0

/-- `addrs[i] = v` -/
def setAddr (e : InodeEntry) (i : ℕ) (v : UInt32) : InodeEntry :=
  { e with addrs := fun k => if k.val = i then v else e.addrs k }

theorem addr_setAddr (e : InodeEntry) {i j : ℕ} (hi : i < inodeNumDirect) (v : UInt32) :
    (e.setAddr i v).addr j = if j = i then v else e.addr j := by
  by_cases hj : j < inodeNumDirect
  · simp [addr, setAddr, hj]
  · have hne : j ≠ i := by omega
    simp [addr, hj, hne]

/-- Byte `j` of the entry in memory. -/
def byte (e : InodeEntry) (j : ℕ) : UInt8 :=
  if j < 2 then leByte e.type.toNat j
  else if j < 4 then leByte e.major.toNat (j - 2)
  else if j < 6 then leByte e.minor.toNat (j - 4)
  else if j < 8 then leByte e.numLinks.toNat (j - 6)
  else if j < 12 then leByte e.numBytes.toNat (j - 8)
  else if j < 60 then leByte (e.addr ((j - 12) / 4)).toNat ((j - 12) % 4)
  else leByte e.indirect.toNat (j - 60)

end InodeEntry

namespace BlockData

/-- `*get_entry(block, inode_no)` for the `k`-th entry of the block. -/
def inodeEntry (d : BlockData) (k : ℕ) : InodeEntry where
  type := .ofNat (d.readLe (sizeofInodeEntry * k) 2)
  major := .ofNat (d.readLe (sizeofInodeEntry * k + 2) 2)
  minor := .ofNat (d.readLe (sizeofInodeEntry * k + 4) 2)
  numLinks := .ofNat (d.readLe (sizeofInodeEntry * k + 6) 2)
  numBytes := .ofNat (d.readLe (sizeofInodeEntry * k + 8) 4)
  addrs i := .ofNat (d.readLe (sizeofInodeEntry * k + 12 + 4 * i) 4)
  indirect := .ofNat (d.readLe (sizeofInodeEntry * k + 60) 4)

/-- `memmove(entry, e, sizeof(InodeEntry))` for the `k`-th entry of the block. -/
def setInodeEntry (d : BlockData) (k : ℕ) (e : InodeEntry) : BlockData := fun i =>
  if sizeofInodeEntry * k ≤ i ∧ i < sizeofInodeEntry * k + sizeofInodeEntry
  then e.byte (i - sizeofInodeEntry * k) else d i

/-- `((IndirectBlock *)block->data)->addrs[i]` -/
def addr (d : BlockData) (i : ℕ) : UInt32 := .ofNat (d.readLe (4 * i) 4)

/-- `addrs[i] = v` in an indirect block -/
def setAddr (d : BlockData) (i : ℕ) (v : UInt32) : BlockData := fun j =>
  if j.val / 4 = i then leByte v.toNat (j % 4) else d j

/-- `memmove(data + off, src, len)` -/
def patch (d : BlockData) (off len : ℕ) (src : ℕ → UInt8) : BlockData := fun i =>
  if off ≤ i ∧ i < off + len then src (i - off) else d i

/-- The test `b->data[i / 8] & (1 << (i % 8))`. -/
def bit (d : BlockData) (i : ℕ) : Bool := d.byte (i / 8) &&& (1 <<< UInt8.ofNat (i % 8)) != 0

/-- `b->data[i / 8] |= 1 << (i % 8)` -/
def setBit (d : BlockData) (i : ℕ) : BlockData := fun j =>
  if j.val = i / 8 then d j ||| (1 <<< UInt8.ofNat (i % 8)) else d j

/-- `b->data[i / 8] &= ~(1 << (i % 8))` -/
def clearBit (d : BlockData) (i : ℕ) : BlockData := fun j =>
  if j.val = i / 8 then d j &&& ~~~(1 <<< UInt8.ofNat (i % 8)) else d j

/-! ### Reading numbers back -/

theorem readLe_congr {d d' : BlockData} {off off' w : ℕ}
    (h : ∀ j < w, d.byte (off + j) = d'.byte (off' + j)) : d.readLe off w = d'.readLe off' w :=
  leValue_congr h

/-- Bytes that are those of a number are read as that number. -/
theorem readLe_eq {d : BlockData} {off w v : ℕ} (hv : v < 256 ^ w)
    (h : ∀ j < w, d.byte (off + j) = leByte v j) : d.readLe off w = v := by
  rw [readLe, leValue_congr h, leValue_leByte, Nat.mod_eq_of_lt hv]

theorem byte_setInodeEntry {d : BlockData} {k i : ℕ} {e : InodeEntry} (hi : i < blockSize) :
    (d.setInodeEntry k e).byte i
      = if sizeofInodeEntry * k ≤ i ∧ i < sizeofInodeEntry * k + sizeofInodeEntry
        then e.byte (i - sizeofInodeEntry * k) else d.byte i := by
  rw [byte_of_lt _ hi, byte_of_lt _ hi]
  rfl

/-- The bytes of a stored entry. -/
private theorem byte_stored {d : BlockData} {k off : ℕ} {e : InodeEntry} (hk : k < inodePerBlock)
    (hoff : off < sizeofInodeEntry) :
    (d.setInodeEntry k e).byte (sizeofInodeEntry * k + off) = e.byte off := by
  have hlt : sizeofInodeEntry * k + off < blockSize := by
    simp only [inodePerBlock, sizeofInodeEntry, blockSize] at *
    omega
  rw [byte_setInodeEntry hlt, if_pos ⟨by omega, by omega⟩, Nat.add_sub_cancel_left]

/-- A stored entry is read back. -/
theorem inodeEntry_setInodeEntry_self (d : BlockData) {k : ℕ} (hk : k < inodePerBlock)
    (e : InodeEntry) : (d.setInodeEntry k e).inodeEntry k = e := by
  have hread : ∀ off w v, off + w ≤ sizeofInodeEntry → v < 256 ^ w →
      (∀ j < w, e.byte (off + j) = leByte v j) →
      (d.setInodeEntry k e).readLe (sizeofInodeEntry * k + off) w = v := by
    intro off w v hoff hv hbyte
    refine readLe_eq hv fun j hj => ?_
    rw [Nat.add_assoc, byte_stored hk (by omega), hbyte j hj]
  have h16 : ∀ v : UInt16, v.toNat < 256 ^ 2 := fun v => v.toNat_lt
  have h32 : ∀ v : UInt32, v.toNat < 256 ^ 4 := fun v => v.toNat_lt
  ext1
  · have h := hread 0 2 e.type.toNat (by decide) (h16 _) fun j hj => by
      rw [InodeEntry.byte, if_pos (by omega), Nat.zero_add]
    rw [inodeEntry, show sizeofInodeEntry * k = sizeofInodeEntry * k + 0 from rfl, h,
      UInt16.ofNat_toNat]
  · rw [inodeEntry, hread 2 2 e.major.toNat (by decide) (h16 _) fun j hj => by
      rw [InodeEntry.byte, if_neg (by omega), if_pos (by omega), Nat.add_sub_cancel_left]]
    exact UInt16.ofNat_toNat
  · rw [inodeEntry, hread 4 2 e.minor.toNat (by decide) (h16 _) fun j hj => by
      rw [InodeEntry.byte, if_neg (by omega), if_neg (by omega), if_pos (by omega),
        Nat.add_sub_cancel_left]]
    exact UInt16.ofNat_toNat
  · rw [inodeEntry, hread 6 2 e.numLinks.toNat (by decide) (h16 _) fun j hj => by
      rw [InodeEntry.byte, if_neg (by omega), if_neg (by omega), if_neg (by omega),
        if_pos (by omega), Nat.add_sub_cancel_left]]
    exact UInt16.ofNat_toNat
  · rw [inodeEntry, hread 8 4 e.numBytes.toNat (by decide) (h32 _) fun j hj => by
      rw [InodeEntry.byte, if_neg (by omega), if_neg (by omega), if_neg (by omega),
        if_neg (by omega), if_pos (by omega), Nat.add_sub_cancel_left]]
    exact UInt32.ofNat_toNat
  · funext i
    have hi : i.val < 12 := i.isLt
    have h := hread (12 + 4 * i) 4 (e.addrs i).toNat (by simp only [sizeofInodeEntry]; omega) (h32 _) fun j hj => by
      have hdiv : (12 + 4 * i.val + j - 12) / 4 = i := by omega
      have hmod : (12 + 4 * i.val + j - 12) % 4 = j := by omega
      rw [InodeEntry.byte, if_neg (by omega), if_neg (by omega), if_neg (by omega),
        if_neg (by omega), if_neg (by omega), if_pos (by omega), hdiv, hmod]
      simp [InodeEntry.addr]
    simp only [inodeEntry, Nat.add_assoc, h]
    exact UInt32.ofNat_toNat
  · rw [inodeEntry, hread 60 4 e.indirect.toNat (by decide) (h32 _) fun j hj => by
      rw [InodeEntry.byte, if_neg (by omega), if_neg (by omega), if_neg (by omega),
        if_neg (by omega), if_neg (by omega), if_neg (by omega), Nat.add_sub_cancel_left]]
    exact UInt32.ofNat_toNat

/-- The other entries of the block stay. -/
theorem inodeEntry_setInodeEntry_ne (d : BlockData) {k l : ℕ} (hl : l < inodePerBlock)
    (hkl : l ≠ k) (e : InodeEntry) : (d.setInodeEntry k e).inodeEntry l = d.inodeEntry l := by
  have hread : ∀ off w, off + w ≤ sizeofInodeEntry →
      (d.setInodeEntry k e).readLe (sizeofInodeEntry * l + off) w
        = d.readLe (sizeofInodeEntry * l + off) w := by
    intro off w hoff
    refine readLe_congr fun j hj => ?_
    have hlt : sizeofInodeEntry * l + off + j < blockSize := by
      simp only [inodePerBlock, sizeofInodeEntry, blockSize] at *
      omega
    rw [byte_setInodeEntry hlt, if_neg]
    simp only [sizeofInodeEntry] at *
    omega
  have h0 : (d.setInodeEntry k e).readLe (sizeofInodeEntry * l) 2
      = d.readLe (sizeofInodeEntry * l) 2 := hread 0 2 (by decide)
  have haddrs : ∀ i : Fin inodeNumDirect,
      (d.setInodeEntry k e).readLe (sizeofInodeEntry * l + 12 + 4 * i) 4
        = d.readLe (sizeofInodeEntry * l + 12 + 4 * i) 4 := by
    intro i
    have hi : i.val < 12 := i.isLt
    rw [Nat.add_assoc]
    exact hread (12 + 4 * i) 4 (by simp only [sizeofInodeEntry]; omega)
  simp only [inodeEntry, h0, hread 2 2 (by decide), hread 4 2 (by decide), hread 6 2 (by decide),
    hread 8 4 (by decide), hread 60 4 (by decide), haddrs]

/-- **Round trip of an inode entry.** -/
theorem inodeEntry_setInodeEntry (d : BlockData) {k l : ℕ} (hk : k < inodePerBlock)
    (hl : l < inodePerBlock) (e : InodeEntry) :
    (d.setInodeEntry k e).inodeEntry l = if l = k then e else d.inodeEntry l := by
  by_cases hlk : l = k
  · rw [hlk, if_pos rfl, inodeEntry_setInodeEntry_self d hk]
  · rw [if_neg hlk, inodeEntry_setInodeEntry_ne d hl hlk]

/-- **Round trip of a number in an indirect block.** -/
theorem addr_setAddr (d : BlockData) {i j : ℕ} (hj : j < inodeNumIndirect) (v : UInt32) :
    (d.setAddr i v).addr j = if j = i then v else d.addr j := by
  have hlt : ∀ k < 4, 4 * j + k < blockSize := by
    intro k hk
    simp only [inodeNumIndirect, blockSize] at *
    omega
  have hbyte : ∀ k < 4, (d.setAddr i v).byte (4 * j + k)
      = if j = i then leByte v.toNat k else d.byte (4 * j + k) := by
    intro k hk
    have hdiv : (4 * j + k) / 4 = j := by omega
    have hmod : (4 * j + k) % 4 = k := by omega
    rw [byte_of_lt _ (hlt k hk), byte_of_lt _ (hlt k hk)]
    simp only [setAddr, hdiv, hmod]
  by_cases hji : j = i
  · have h32 : v.toNat < 256 ^ 4 := v.toNat_lt
    rw [if_pos hji, addr, readLe_eq h32 fun k hk => by rw [hbyte k hk, if_pos hji]]
    exact UInt32.ofNat_toNat
  · rw [if_neg hji]
    exact congrArg UInt32.ofNat (readLe_congr fun k hk => by rw [hbyte k hk, if_neg hji])

/-- A new indirect block has no numbers. -/
theorem addr_fill_zero {i : ℕ} (hi : i < inodeNumIndirect) : (fill 0).addr i = 0 := by
  have hzero : (fill 0).readLe (4 * i) 4 = 0 := by
    refine readLe_eq (by decide) fun j hj => ?_
    have hlt : 4 * i + j < blockSize := by
      simp only [inodeNumIndirect, blockSize] at *
      omega
    rw [byte_fill 0 hlt, leByte, Nat.zero_div]
    rfl
  rw [addr, hzero]
  rfl

theorem byte_patch (d : BlockData) (src : ℕ → UInt8) {off len i : ℕ} (hi : i < blockSize) :
    (d.patch off len src).byte i
      = if off ≤ i ∧ i < off + len then src (i - off) else d.byte i := by
  rw [byte_of_lt _ hi, byte_of_lt _ hi]
  rfl

/-! ### Bitmaps -/

/-- The mask `1 << k` has bit `k` only. -/
private theorem toBitVec_mask : ∀ k : Fin 8,
    ((1 : UInt8) <<< UInt8.ofNat k.val).toBitVec = BitVec.twoPow 8 k := by decide

private theorem test_eq (x : UInt8) {k : ℕ} (hk : k < 8) :
    (x &&& (1 <<< UInt8.ofNat k) != 0) = x.toBitVec.getLsbD k := by
  have hmask := toBitVec_mask ⟨k, hk⟩
  have hzero : (x &&& (1 <<< UInt8.ofNat k) = 0) ↔ x.toBitVec.getLsbD k = false := by
    rw [← UInt8.toBitVec_inj, UInt8.toBitVec_and, hmask, BitVec.and_twoPow]
    split
    · rename_i hbit
      rw [hbit]
      refine iff_of_false (fun h => ?_) (by decide)
      have := congrArg (fun b : BitVec 8 => b.getLsbD k) h
      simp [hk] at this
    · rename_i hbit
      simpa using hbit
  cases hbit : x.toBitVec.getLsbD k with
  | true =>
    rw [bne_iff_ne]
    intro h
    rw [hzero.mp h] at hbit
    cases hbit
  | false => rw [hzero.mpr hbit, bne_self_eq_false]

/-- The bit of block `i` in a bitmap block. -/
theorem bit_eq (d : BlockData) (i : ℕ) :
    d.bit i = (d.byte (i / 8)).toBitVec.getLsbD (i % 8) := test_eq _ (Nat.mod_lt _ (by decide))

private theorem byte_div (d d' : BlockData) {i j : ℕ} (hj : j < bitPerBlock) (f : UInt8 → UInt8)
    (h : ∀ k : Fin blockSize, d' k = if k.val = i / 8 then f (d k) else d k) :
    d'.byte (j / 8) = if j / 8 = i / 8 then f (d.byte (j / 8)) else d.byte (j / 8) := by
  have hlt : j / 8 < blockSize := by
    simp only [bitPerBlock, blockSize] at *
    omega
  rw [byte_of_lt _ hlt, byte_of_lt _ hlt, h]

theorem bit_setBit (d : BlockData) {i j : ℕ} (hj : j < bitPerBlock) :
    (d.setBit i).bit j = (decide (j = i) || d.bit j) := by
  have hi8 : i % 8 < 8 := Nat.mod_lt _ (by decide)
  rw [bit_eq, bit_eq, byte_div d (d.setBit i) hj (fun x => x ||| (1 <<< UInt8.ofNat (i % 8)))
    fun k => rfl]
  by_cases hdiv : j / 8 = i / 8
  · have hji : j = i ↔ i % 8 = j % 8 := by omega
    rw [if_pos hdiv, UInt8.toBitVec_or, toBitVec_mask ⟨i % 8, hi8⟩, BitVec.getLsbD_or,
      BitVec.getLsbD_twoPow]
    simp only [hji, hi8, decide_true, Bool.true_and, Bool.or_comm]
  · have hji : j ≠ i := fun h => hdiv (h ▸ rfl)
    simp [hdiv, hji]

theorem bit_clearBit (d : BlockData) {i j : ℕ} (hj : j < bitPerBlock) :
    (d.clearBit i).bit j = (!decide (j = i) && d.bit j) := by
  have hi8 : i % 8 < 8 := Nat.mod_lt _ (by decide)
  have hj8 : j % 8 < 8 := Nat.mod_lt _ (by decide)
  rw [bit_eq, bit_eq, byte_div d (d.clearBit i) hj (fun x => x &&& ~~~(1 <<< UInt8.ofNat (i % 8)))
    fun k => rfl]
  by_cases hdiv : j / 8 = i / 8
  · have hji : j = i ↔ i % 8 = j % 8 := by omega
    rw [if_pos hdiv, UInt8.toBitVec_and, UInt8.toBitVec_not, toBitVec_mask ⟨i % 8, hi8⟩,
      BitVec.getLsbD_and, BitVec.getLsbD_not, BitVec.getLsbD_twoPow]
    simp only [hji, hi8, hj8, decide_true, Bool.true_and, Bool.and_comm]
  · have hji : j ≠ i := fun h => hdiv (h ▸ rfl)
    simp [hdiv, hji]

end BlockData

end OsLab
