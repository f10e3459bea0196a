/-
The program that makes the file system (`user/mkfs/main.c`).

`mkfs` runs on the host.  It writes an image with a root directory and a copy of each file
that it is given, for the kernel to start from.  It does not use `fs/inode.c`: `ialloc` and
`iappend` hand out inodes and blocks one after another, and `balloc` writes the bitmap when
everything else has been written.

The image is a function from the number of a sector to its content, and `sectors` is the
length of the file.  `freeinode` and `freeblock` do not wrap around, since `rsect` ends the
program at the first sector behind the image.  The calls of the host (`open`, `lseek`,
`write`) on the image do not fail.
-/
import OsLab.Fs.Mount
import OsLab.Kernel.DirTree

namespace OsLab.Mkfs

/-- How `mkfs` ends without an image. -/
inductive Stop
  /-- `perror`, then `exit(1)` -/
  | perror
  | assertFails
  deriving DecidableEq

/-- The image, and the variables `freeinode` and `freeblock`. -/
structure Image where
  sectors : ℕ
  blocks : ℕ → BlockData
  freeinode : ℕ
  freeblock : ℕ

/-- Programs of `mkfs`. -/
abbrev MkfsM : Type → Type := StateT Image (Except Stop)

/-- `FSSIZE` -/
abbrev fssize : ℕ := 1000

/-- `NINODES` -/
abbrev ninodes : ℕ := 200

/-- `nmeta`: the log, the inode blocks and the bitmap, and two blocks in front of them -/
abbrev nmeta : ℕ := 2 + logMaxSize + (ninodes / inodePerBlock + 1) + (fssize / bitPerBlock + 1)

/-- `xshort`: the number with these bytes in memory, the low one first. -/
def xshort (x : UInt16) : UInt16 := .ofNat (leValue (leByte x.toNat) 2)

/-- `xint` -/
def xint (x : UInt32) : UInt32 := .ofNat (leValue (leByte x.toNat) 4)

/-- On a little-endian machine nothing has to be converted. -/
@[simp] theorem xshort_eq (x : UInt16) : xshort x = x := by
  have hlt : x.toNat < 256 ^ 2 := x.toNat_lt
  rw [xshort, leValue_leByte, Nat.mod_eq_of_lt hlt, UInt16.ofNat_toNat]

@[simp] theorem xint_eq (x : UInt32) : xint x = x := by
  have hlt : x.toNat < 256 ^ 4 := x.toNat_lt
  rw [xint, leValue_leByte, Nat.mod_eq_of_lt hlt, UInt32.ofNat_toNat]

/-- `assert` -/
def assert (p : Prop) [Decidable p] : MkfsM Unit := if p then pure () else throw .assertFails

/-- `wsect`; a file grows when it is written behind its end. -/
def wsect (sec : ℕ) (buf : BlockData) : MkfsM Unit :=
  modify fun s =>
    { s with sectors := max s.sectors (sec + 1), blocks := Function.update s.blocks sec buf }

/-- `rsect`; behind the end of the file `read` returns fewer than `BSIZE` bytes. -/
def rsect (sec : ℕ) : MkfsM BlockData := do
  let s ← get
  if sec < s.sectors then return s.blocks sec else throw .perror

/-- `freeblock++` -/
def nextBlock : MkfsM ℕ := do
  let s ← get
  set { s with freeblock := s.freeblock + 1 }
  return s.freeblock

/-- `freeinode++` -/
def nextInode : MkfsM ℕ := do
  let s ← get
  set { s with freeinode := s.freeinode + 1 }
  return s.freeinode

section Inodes

variable (sb : SuperBlock)

/-- `IBLOCK` -/
def iblock (i : ℕ) : ℕ := i / inodePerBlock + sb.inodeStart

/-- `winode` -/
def winode (inum : ℕ) (ip : InodeEntry) : MkfsM Unit := do
  let bn := iblock sb inum
  let buf ← rsect bn
  wsect bn (buf.setInodeEntry (inum % inodePerBlock) ip)

/-- `rinode` -/
def rinode (inum : ℕ) : MkfsM InodeEntry := do
  let buf ← rsect (iblock sb inum)
  return buf.inodeEntry (inum % inodePerBlock)

/-- `ialloc` -/
def ialloc (type : UInt16) : MkfsM ℕ := do
  let inum ← nextInode
  let din : InodeEntry :=
    { InodeEntry.zero with type := xshort type, numLinks := xshort 1, numBytes := xint 0 }
  winode sb inum din
  return inum

/-- `balloc` -/
def balloc (used : ℕ) : MkfsM Unit := do
  assert (used < blockSize * 8)
  wsect sb.bitmapStart ((List.range used).foldl BlockData.setBit (.fill 0))

/-- The block `x` that the number at `k` in the indirect block says. -/
def indirectBlock (k : ℕ) (din : InodeEntry) : MkfsM ℕ := do
  let indirect ← rsect (xint din.indirect).toNat
  if indirect.addr k = 0 then do
    let n ← nextBlock
    let indirect := indirect.setAddr k (xint (.ofNat n))
    wsect (xint din.indirect).toNat indirect
    return (xint (indirect.addr k)).toNat
  else return (xint (indirect.addr k)).toNat

/-- The first part of a pass of `iappend`: the block `x` for file block `fbn`, and `din`. -/
def fileBlock (fbn : ℕ) (din : InodeEntry) : MkfsM (ℕ × InodeEntry) :=
  if fbn < inodeNumDirect then
    if xint (din.addr fbn) = 0 then do
      let n ← nextBlock
      let din := din.setAddr fbn (xint (.ofNat n))
      return ((xint (din.addr fbn)).toNat, din)
    else return ((xint (din.addr fbn)).toNat, din)
  else
    if xint din.indirect = 0 then do
      let n ← nextBlock
      let din := { din with indirect := xint (.ofNat n) }
      let x ← indirectBlock (fbn - inodeNumDirect) din
      return (x, din)
    else do
      let x ← indirectBlock (fbn - inodeNumDirect) din
      return (x, din)

/-- A pass of the loop of `iappend`, with the bytes `p` to go: how many it has written, and
`din`. -/
def appendPass (p : List UInt8) (off : ℕ) (din : InodeEntry) : MkfsM (ℕ × InodeEntry) := do
  let fbn := off / blockSize
  assert (fbn < inodeMaxBlocks)
  let r ← fileBlock fbn din
  let n1 := min p.length ((fbn + 1) * blockSize - off)
  let buf ← rsect r.1
  wsect r.1 (buf.patch (off - fbn * blockSize) n1 fun j => p.getD j 0)
  return (n1, r.2)

/-- The loop of `iappend`: `off` and `din` after it.  Every pass writes a byte, so
`p.length` passes are enough. -/
def appendLoop : ℕ → List UInt8 → ℕ → InodeEntry → MkfsM (ℕ × InodeEntry)
  | 0, _, off, din => return (off, din)
  | fuel + 1, p, off, din =>
    if p = [] then return (off, din)
    else do
      let r ← appendPass p off din
      appendLoop fuel (p.drop r.1) (off + r.1) r.2

/-- `iappend` -/
def iappend (inum : ℕ) (p : List UInt8) : MkfsM Unit := do
  let din ← rinode sb inum
  let r ← appendLoop p.length p (xint din.numBytes).toNat din
  winode sb inum { r.2 with numBytes := xint (.ofNat r.1) }

end Inodes

/-! ### The files -/

/-- `'/'` -/
def slash : UInt8 := 47

/-- `'_'` -/
def underscore : UInt8 := 95

/-- An argument of `mkfs` after the image. -/
structure HostFile where
  path : List UInt8
  /-- the end of a path is the first NUL -/
  path_ne : (0 : UInt8) ∉ path
  /-- what the calls of `read` return, one after another; `none` when `open` fails -/
  reads : Option (List (List UInt8))

/-- `j` after the loop over the path. -/
def lastPart (path : List UInt8) : ℕ := path.foldl (fun j c => if c = slash then 0 else j + 1) 0

/-- `argv[i]` after `argv[i] -= j` -/
def baseName (path : List UInt8) : List UInt8 := path.drop (path.length - lastPart path)

/-- `argv[i]` when a leading `'_'` has been skipped. -/
def HostFile.name (file : HostFile) : List UInt8 :=
  match baseName file.path with
  | [] => []
  | c :: cs => if c = underscore then cs else c :: cs

/-- `de`, after `bzero` and the copy of the name. -/
def dirent (inum : ℕ) (name : List UInt8) : DirEntry where
  inodeNo := xshort (.ofNat inum)
  name k := (strncpy (fun j => name.getD j 0) fileNameMaxLength).getD k 0

section Main

variable (sb : SuperBlock)

/-- `while ((cc = read(fd, buf, sizeof(buf))) > 0) iappend(inum, buf, cc);` -/
def appendReads (inum : ℕ) : List (List UInt8) → MkfsM Unit
  | [] => return
  | buf :: rest =>
    if buf = [] then return
    else do
      iappend sb inum buf
      appendReads inum rest

/-- A pass of the loop of `main` over the files. -/
def addFile (rootino : ℕ) (file : HostFile) : MkfsM Unit := do
  assert (slash ∉ baseName file.path)
  match file.reads with
  | none => throw .perror
  | some reads => do
    let inum ← ialloc sb inodeRegular
    iappend sb rootino (dirent inum file.name).toBytes
    appendReads sb inum reads

/-- The loop of `main` over the files. -/
def addFiles (rootino : ℕ) : List HostFile → MkfsM Unit
  | [] => return
  | file :: rest => do
    addFile sb rootino file
    addFiles rootino rest

end Main

/-- The super block as `main` writes it. -/
def superBlockData (sb : SuperBlock) : BlockData :=
  (BlockData.fill 0).patch 0 28 fun j =>
    leByte ([sb.numBlocks, sb.numDataBlocks, sb.numInodes, sb.numLogBlocks, sb.logStart,
      sb.inodeStart, sb.bitmapStart].getD (j / 4) 0) (j % 4)

/-- `main`; `.mkfs` is what it stores in `sb`. -/
def main (files : List HostFile) : MkfsM Unit := do
  modify fun s => { s with freeblock := nmeta }
  forUpTo fssize fun i => wsect i (.fill 0)
  wsect 0 (superBlockData .mkfs)
  let rootino ← ialloc .mkfs inodeDirectory
  assert (rootino = rootInodeNo)
  iappend .mkfs rootino (dirent rootino dotName).toBytes
  iappend .mkfs rootino (dirent rootino dotdotName).toBytes
  addFiles .mkfs rootino files
  let din ← rinode .mkfs rootino
  let off := (xint din.numBytes).toNat
  let off := (off / blockSize + 1) * blockSize
  winode .mkfs rootino { din with numBytes := xint (.ofNat off) }
  balloc .mkfs (← get).freeblock

/-- `mkfs` with these files, from an image without content. -/
def mkfs (files : List HostFile) : Except Stop Image :=
  match (main files).run ⟨0, fun _ => .fill 0, 1, 0⟩ with
  | .ok (_, s) => .ok s
  | .error e => .error e

end OsLab.Mkfs
