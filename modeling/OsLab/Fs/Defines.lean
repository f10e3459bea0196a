/-
The on-disk primitives of the file system (`fs/defines.h`): constants, the super
block, and the log header.

A block is `blockSize` bytes.  The log header fills one block exactly: the count
`num_blocks` and `logMaxSize` block numbers, each a little-endian `usize`.
`LogHeader.toBlock` and `LogHeader.ofBlock` are the two directions of the cast
`(u8 *)&header`; `logged_ofBlock_toBlock` is their round trip.
-/
import OsLab.Lib.Bytes

namespace OsLab

/-- `BLOCK_SIZE` -/
abbrev blockSize : ℕ := 512

/-- `sizeof(usize)` -/
abbrev sizeofUsize : ℕ := 8

/-- `LOG_MAX_SIZE`: the length of `LogHeader.block_no` -/
abbrev logMaxSize : ℕ := (blockSize - sizeofUsize) / sizeofUsize

/-- `OP_MAX_NUM_BLOCKS` -/
abbrev opMaxNumBlocks : ℕ := 10

/-- `EVICTION_THRESHOLD` -/
abbrev evictionThreshold : ℕ := 20

/-- The `BLOCK_SIZE` bytes of a block. -/
abbrev BlockData : Type := Fin blockSize → UInt8

namespace BlockData

/-- `data[i]`; the bytes past the block are never read by the code. -/
def byte (d : BlockData) (i : ℕ) : UInt8 := if h : i < blockSize then d ⟨i, h⟩ else 0

/-- A block filled with one byte (`memset`). -/
def fill (b : UInt8) : BlockData := fun _ => b

/-- The `w`-byte little-endian number at byte `off`. -/
def readLe (d : BlockData) (off w : ℕ) : ℕ := leValue (fun j => d.byte (off + j)) w

@[simp] theorem byte_val (d : BlockData) (i : Fin blockSize) : d.byte i = d i := by
  simp [byte]

theorem byte_of_lt (d : BlockData) {i : ℕ} (h : i < blockSize) : d.byte i = d ⟨i, h⟩ := by
  simp [byte, h]

@[simp] theorem byte_fill (b : UInt8) {i : ℕ} (h : i < blockSize) : (fill b).byte i = b := by
  simp [byte, h, fill]

end BlockData

/-! ### The super block -/

/-- The super block describes the disk layout
`[ MBR block | super block | log blocks | inode blocks | bitmap blocks | data blocks ]`. -/
structure SuperBlock where
  /-- total number of blocks in filesystem -/
  numBlocks : ℕ
  numDataBlocks : ℕ
  numInodes : ℕ
  /-- number of blocks for logging, including log header -/
  numLogBlocks : ℕ
  /-- the first block of logging area -/
  logStart : ℕ
  /-- the first block of inode area -/
  inodeStart : ℕ
  /-- the first block of bitmap area -/
  bitmapStart : ℕ
  deriving DecidableEq, Repr

namespace SuperBlock

/-- Block `n` belongs to the log area `[log_start, log_start + num_log_blocks)`. -/
def InLog (sb : SuperBlock) (n : ℕ) : Prop :=
  sb.logStart ≤ n ∧ n < sb.logStart + sb.numLogBlocks

instance (sb : SuperBlock) (n : ℕ) : Decidable (sb.InLog n) :=
  inferInstanceAs (Decidable (_ ∧ _))

/-- The block that holds the copy of logged block `tail`. -/
def logBlock (sb : SuperBlock) (tail : ℕ) : ℕ := sb.logStart + tail + 1

/-- The super block that `mkfs` writes: `FSSIZE` blocks, `NINODES` inodes and
`LOG_MAX_SIZE` log blocks, the header included. -/
def mkfs : SuperBlock where
  numBlocks := 1000
  numDataBlocks := 1000 - (2 + logMaxSize + (200 / 8 + 1) + (1000 / (512 * 8) + 1))
  numInodes := 200
  numLogBlocks := logMaxSize
  logStart := 2
  inodeStart := 2 + logMaxSize
  bitmapStart := 2 + logMaxSize + (200 / 8 + 1)

end SuperBlock

/-! ### The log header -/

/-- `LogHeader`: how many blocks are logged, and which. -/
structure LogHeader where
  numBlocks : ℕ
  blockNo : Fin logMaxSize → ℕ

namespace LogHeader

/-- `block_no[i]`, for an index inside the array. -/
def entry (h : LogHeader) (i : ℕ) : ℕ := if hi : i < logMaxSize then h.blockNo ⟨i, hi⟩ else 0

/-- The logged block numbers `block_no[0], …, block_no[num_blocks - 1]`. -/
def logged (h : LogHeader) : List ℕ := (List.range h.numBlocks).map h.entry

/-- `block_no[i] = n` -/
def setEntry (h : LogHeader) (i n : ℕ) : LogHeader :=
  { h with blockNo := fun k => if k.val = i then n else h.blockNo k }

/-- The header as the block that `write_header` writes. -/
def toBlock (h : LogHeader) : BlockData := fun i =>
  if i.val < sizeofUsize then leByte h.numBlocks i
  else leByte (h.entry (i / sizeofUsize - 1)) (i % sizeofUsize)

/-- The header found in a block by `read_header`. -/
def ofBlock (d : BlockData) : LogHeader where
  numBlocks := d.readLe 0 sizeofUsize
  blockNo k := d.readLe (sizeofUsize * (k + 1)) sizeofUsize

@[simp] theorem length_logged (h : LogHeader) : h.logged.length = h.numBlocks := by
  simp [logged]

theorem getElem_logged (h : LogHeader) {i : ℕ} (hi : i < h.logged.length) :
    h.logged[i] = h.entry i := by
  simp [logged]

/-- Clearing `num_blocks` empties the log. -/
@[simp] theorem logged_clear (h : LogHeader) : ({ h with numBlocks := 0 } : LogHeader).logged = [] := by
  simp [logged]

theorem entry_setEntry (h : LogHeader) {i j n : ℕ} (hi : i < logMaxSize) :
    (h.setEntry i n).entry j = if j = i then n else h.entry j := by
  by_cases hj : j < logMaxSize
  · simp [entry, setEntry, hj]
  · have hne : j ≠ i := by omega
    simp [entry, hj, hne]

/-- Overwriting a logged number by itself changes no logged number. -/
theorem logged_setEntry_self (h : LogHeader) {i : ℕ} (hi : i < logMaxSize) :
    (h.setEntry i (h.entry i)).logged = h.logged := by
  refine List.map_congr_left fun j _ => ?_
  rw [entry_setEntry h hi]
  by_cases hj : j = i <;> simp [hj]

/-- Storing `n` at `num_blocks` and counting it appends it. -/
theorem logged_push (h : LogHeader) (n : ℕ) (hlt : h.numBlocks < logMaxSize) :
    ({ h.setEntry h.numBlocks n with numBlocks := h.numBlocks + 1 } : LogHeader).logged
      = h.logged ++ [n] := by
  simp only [logged, List.range_succ, List.map_append, List.map_cons, List.map_nil]
  congr 1
  · refine List.map_congr_left fun j hj => ?_
    have hne : j ≠ h.numBlocks := by
      have := List.mem_range.mp hj
      omega
    show (h.setEntry h.numBlocks n).entry j = h.entry j
    rw [entry_setEntry h hlt, if_neg hne]
  · show [(h.setEntry h.numBlocks n).entry h.numBlocks] = [n]
    rw [entry_setEntry h hlt, if_pos rfl]

/-! ### The header as a block -/

theorem readLe_toBlock_zero (h : LogHeader) :
    h.toBlock.readLe 0 sizeofUsize = h.numBlocks % 256 ^ sizeofUsize := by
  rw [BlockData.readLe, ← leValue_leByte]
  refine leValue_congr fun j hj => ?_
  have hlt : 0 + j < blockSize := by
    simp only [blockSize, sizeofUsize] at *
    omega
  rw [BlockData.byte_of_lt _ hlt, toBlock, if_pos (by simpa using hj)]
  simp

theorem readLe_toBlock_succ (h : LogHeader) {k : ℕ} (hk : k < logMaxSize) :
    h.toBlock.readLe (sizeofUsize * (k + 1)) sizeofUsize = h.entry k % 256 ^ sizeofUsize := by
  rw [BlockData.readLe, ← leValue_leByte]
  refine leValue_congr fun j hj => ?_
  have hlt : sizeofUsize * (k + 1) + j < blockSize := by
    simp only [blockSize, sizeofUsize, logMaxSize] at *
    omega
  rw [BlockData.byte_of_lt _ hlt, toBlock, if_neg (by simp only [sizeofUsize]; omega)]
  have hdiv : (sizeofUsize * (k + 1) + j) / sizeofUsize - 1 = k := by
    simp only [sizeofUsize] at *
    omega
  have hmod : (sizeofUsize * (k + 1) + j) % sizeofUsize = j := by
    simp only [sizeofUsize] at *
    omega
  simp only [hdiv, hmod]

/-- **Round trip of the log header**: a header whose numbers are `usize` values
is read back as written. -/
theorem logged_ofBlock_toBlock {h : LogHeader} (hn : h.numBlocks ≤ logMaxSize)
    (hlt : ∀ n ∈ h.logged, n < 2 ^ 64) :
    (ofBlock h.toBlock).numBlocks = h.numBlocks ∧ (ofBlock h.toBlock).logged = h.logged := by
  have hcount : (ofBlock h.toBlock).numBlocks = h.numBlocks := by
    rw [ofBlock, readLe_toBlock_zero]
    exact Nat.mod_eq_of_lt (by simp only [logMaxSize, blockSize, sizeofUsize] at *; omega)
  refine ⟨hcount, ?_⟩
  rw [logged, hcount]
  refine List.map_congr_left fun k hk => ?_
  have hkn : k < h.numBlocks := List.mem_range.mp hk
  have hk' : k < logMaxSize := by omega
  have hb : h.entry k < 256 ^ sizeofUsize := by
    have := hlt (h.entry k) (List.mem_map_of_mem hk)
    simp only [sizeofUsize]
    omega
  have hread : (ofBlock h.toBlock).entry k = h.toBlock.readLe (sizeofUsize * (k + 1)) sizeofUsize := by
    rw [entry, dif_pos hk', ofBlock]
  rw [hread, readLe_toBlock_succ h hk', Nat.mod_eq_of_lt hb]

end LogHeader

end OsLab
