/-
What the kernel finds in the image of `mkfs`.

* `Image.WellFormed` — the file system of the image is well formed, and each file is found under
  its name and read;
* `mkfs_wellFormed_iff` — so it is when there are inodes for the files, the entries do not fill
  the last block of the root directory, and the names are different in their first 14 bytes.
-/
import OsLab.User.MkfsMain

namespace OsLab.Mkfs

open MapCache (dirBytes)

variable {sb : SuperBlock} {m t : Image} {D : ℕ → BlockData} {f : Files} {i : ℕ} {l : List UInt8}

/-! ### What the kernel finds -/

/-- The block cache of the kernel, as the inode layer sees it. -/
abbrev kernelCache : BlockCache (StateT BlockStore (Except Fault)) := mapOps.withBitmap .mkfs

/-- The kernel has started, and no inode is in memory. -/
def Image.started (t : Image) : FsState BlockStore := ⟨⟨t.blocks, ∅⟩, fun _ => none⟩

/-- The kernel looks for a name in the root directory, with `inode_lookup`, and reads `count`
bytes of the inode that it finds: the number of the inode, and what `inode_read` returns. -/
def kernelRead (name : List UInt8) (count : ℕ) : FsM BlockStore (ℕ × FsResult) := do
  let _ ← fsCall .mkfs kernelCache (.get rootInodeNo)
  let root ← inodeOf rootInodeNo
  let r ← onStore (inodeLookup kernelCache root (strPtr name))
  let _ ← fsCall .mkfs kernelCache (.get r.1)
  let b ← fsCall .mkfs kernelCache (.read r.1 0 count)
  return (r.1, b)

/-- The name of a file as it is stored. -/
def HostFile.storedName (file : HostFile) : List UInt8 := file.name.take fileNameMaxLength

/-- **What the kernel relies on** in an image with these files. -/
structure Image.WellFormed (t : Image) (files : List HostFile) : Prop where
  /-- the block of each byte of a file is mapped -/
  mapped : ∀ i p, p < (liveEntry .mkfs t.blocks i).numBytes.toNat →
    blockOf (liveEntry .mkfs t.blocks i) t.blocks (p / blockSize) ≠ 0
  distinct : ∀ x y, slots (liveEntry .mkfs t.blocks) t.blocks x ≠ 0 →
    slots (liveEntry .mkfs t.blocks) t.blocks x = slots (liveEntry .mkfs t.blocks) t.blocks y →
    x = y
  inData : ∀ x, slots (liveEntry .mkfs t.blocks) t.blocks x ≠ 0 →
    SuperBlock.mkfs.InData (slots (liveEntry .mkfs t.blocks) t.blocks x)
  bits : ∀ n < fssize, bitOf .mkfs t.blocks n = decide (n < t.freeblock)
  /-- each file is found under its name, and has the bytes of the file of the host -/
  read : ∀ k file, files[k]? = some file → ∀ count < usizeSize, ∃ s,
    (kernelRead file.storedName count).run t.started
      = .ok ((k + 2, .bytes (file.bytes.take count) (min count file.bytes.length)), s)

/-- The names in the root directory, which has 14 bytes for each. -/
def storedNames (files : List HostFile) : List (List UInt8) :=
  dotName :: dotdotName :: files.map HostFile.storedName

/-- How many directory entries are in a block. -/
abbrev entriesPerBlock : ℕ := blockSize / sizeofDirEntry

/-! #### The root directory -/

section Root

variable {files : List HostFile} {file : HostFile} {name : List UInt8} {k n : ℕ}

theorem HostFile.zero_notMem_name (file : HostFile) : (0 : UInt8) ∉ file.name := by
  intro h
  refine file.path_ne (List.drop_subset (file.path.length - lastPart file.path) _ ?_)
  rw [HostFile.name] at h
  split at h
  · cases h
  · rename_i c cs hname
    show (0 : UInt8) ∈ baseName file.path
    rw [hname]
    split at h
    · exact List.mem_cons_of_mem _ h
    · exact h

/-- A name counts up to its end. -/
theorem fileName_eq (hname : (0 : UInt8) ∉ name) : fileName name = name.take fileNameMaxLength := by
  have hmap : (List.range fileNameMaxLength).map (strPtr name) = name.take fileNameMaxLength
      ++ List.replicate (fileNameMaxLength - name.length) 0 := by
    refine List.ext_getElem (by simp; omega) fun j hj _ => ?_
    rw [List.length_map, List.length_range] at hj
    rw [List.getElem_map, List.getElem_range, strPtr, List.getD_eq_getElem?_getD,
      List.getElem_append]
    split
    · rename_i hlt
      rw [List.length_take] at hlt
      rw [List.getElem_take, List.getElem?_eq_getElem (by omega), Option.getD_some]
    · rename_i hge
      rw [List.length_take] at hge
      rw [List.getElem?_eq_none (by omega), Option.getD_none, List.getElem_replicate]
  rw [fileName, cstr, hmap, upToNul, List.takeWhile_append_of_pos, ← upToNul, upToNul_replicate,
    List.append_nil]
  intro c hc
  have hne : c ≠ 0 := by
    rintro rfl
    exact hname (List.take_subset _ _ hc)
  simpa using hne

theorem HostFile.fileName_storedName (file : HostFile) :
    fileName file.storedName = file.storedName := by
  have hname : (0 : UInt8) ∉ file.storedName := fun h =>
    file.zero_notMem_name (List.take_subset _ _ h)
  rw [fileName_eq hname, storedName, List.take_take, Nat.min_self]

/-- The name in an entry that `main` writes. -/
theorem key_dirent (no : ℕ) (hname : (0 : UInt8) ∉ name) :
    (dirent no name).key = name.take fileNameMaxLength :=
  (DirEntry.key_strncpy _ _).trans (fileName_eq hname)

theorem map_key_rootEntries (files : List HostFile) :
    (rootEntries files).map DirEntry.key = storedNames files := by
  have hdot : (dirent rootInodeNo dotName).key = dotName := key_dirent _ (by decide)
  have hdotdot : (dirent rootInodeNo dotdotName).key = dotdotName := key_dirent _ (by decide)
  have hfiles : (files.mapIdx fun k file => dirent (k + 2) file.name).map DirEntry.key
      = files.map HostFile.storedName := by
    refine List.ext_getElem (by simp) fun k hk _ => ?_
    rw [List.getElem_map, List.getElem_mapIdx, List.getElem_map]
    exact key_dirent _ (HostFile.zero_notMem_name _)
  rw [rootEntries, List.map_append, hfiles, List.map_cons, List.map_cons, hdot, hdotdot]
  rfl

/-- The number in an entry of the root directory. -/
theorem inodeNo_rootEntries {e : DirEntry} (hlen : files.length + 2 ≤ ninodes)
    (he : (rootEntries files)[k]? = some e) :
    e.inodeNo.toNat = if k < 2 then rootInodeNo else k := by
  have hno : ∀ (no : ℕ) (name : List UInt8), no < 2 ^ 16 → (dirent no name).inodeNo.toNat = no :=
    fun no name hlt => by
      show (xshort (.ofNat no)).toNat = no
      rw [xshort_eq]
      exact UInt16.toNat_ofNat_of_lt' hlt
  match k, he with
  | 0, he | 1, he =>
    obtain rfl := Option.some.inj he
    rfl
  | k + 2, he =>
    change (files.mapIdx fun k file => dirent (k + 2) file.name)[k]? = some e at he
    rw [List.getElem?_mapIdx] at he
    obtain ⟨file, hfile, rfl⟩ := Option.map_eq_some_iff.mp he
    have hlt := (List.getElem?_eq_some_iff.mp hfile).1
    have hmax : ninodes < 2 ^ 16 := by decide
    rw [if_neg (by omega), hno _ _ (by omega)]

theorem getElem?_rootEntries (pad : List DirEntry) {j : ℕ} (hj : j < files.length + 2) :
    (rootEntries files ++ pad)[j]? = (rootEntries files)[j]? :=
  List.getElem?_append_left (by rwa [length_rootEntries])

theorem hasKey_rootEntries (pad : List DirEntry) {j : ℕ} (hj : j < files.length + 2) :
    hasKey (rootEntries files ++ pad) name j = true ↔ (storedNames files)[j]? = some name := by
  rw [hasKey, decide_eq_true_eq, getElem?_rootEntries pad hj, ← List.getElem?_map,
    map_key_rootEntries]

/-- The number that is found in an entry. -/
theorem found_rootEntries (hlen : files.length + 2 ≤ ninodes) (pad : List DirEntry) {j : ℕ}
    (hj : j < files.length + 2) :
    (found (rootEntries files ++ pad) (some j)).1 = if j < 2 then rootInodeNo else j := by
  have he := List.getElem?_eq_getElem (l := rootEntries files) (by rwa [length_rootEntries])
  rw [found, getElem?_rootEntries pad hj, he]
  exact inodeNo_rootEntries hlen he

/-- A name is found with its own number, when no other entry has it. -/
theorem scan_rootEntries (hlen : files.length + 2 ≤ ninodes) (pad : List DirEntry)
    (hfile : files[k]? = some file) :
    (scan (rootEntries files ++ pad) (fileName file.storedName)).1 = k + 2 ↔
      ∀ j < k + 2, (storedNames files)[j]? ≠ (storedNames files)[k + 2]? := by
  have hlt := (List.getElem?_eq_some_iff.mp hfile).1
  have hname : (storedNames files)[k + 2]? = some file.storedName := by
    rw [storedNames, List.getElem?_cons_succ, List.getElem?_cons_succ, List.getElem?_map, hfile,
      Option.map_some]
  have hlen' : k + 2 < (rootEntries files ++ pad).length := by
    rw [List.length_append, length_rootEntries]
    omega
  have hself := (hasKey_rootEntries pad (by omega)).mpr hname
  rw [file.fileName_storedName, scan, hname]
  constructor
  · intro hfound j hj heq
    have hkeyj := (hasKey_rootEntries pad (by omega)).mpr heq
    cases hfirst : firstIndex (hasKey (rootEntries files ++ pad) file.storedName)
        (rootEntries files ++ pad).length with
    | none =>
      rw [firstIndex_eq_none hfirst hlen'] at hself
      cases hself
    | some i =>
      -- the entry that is found is in front, and has another number
      obtain ⟨-, -, hbefore⟩ := firstIndex_eq_some hfirst
      have hi : i ≤ j := by
        by_contra hlt
        rw [hbefore j (by omega)] at hkeyj
        cases hkeyj
      rw [hfirst, found_rootEntries hlen pad (by omega)] at hfound
      split at hfound
      · rw [rootInodeNo] at hfound
        omega
      · omega
  · intro hne
    have hfirst : firstIndex (hasKey (rootEntries files ++ pad) file.storedName)
        (rootEntries files ++ pad).length = some (k + 2) :=
      firstIndex_eq hlen' hself fun j hj => Bool.eq_false_iff.mpr fun h =>
        hne j hj ((hasKey_rootEntries pad (by omega)).mp h)
    rw [hfirst, found_rootEntries hlen pad (by omega), if_neg (by omega)]

theorem fileBlocks_rootSize (n : ℕ) : fileBlocks (rootSize n) = fileBlocks (n * sizeofDirEntry)
    ↔ n % entriesPerBlock ≠ 0 := by
  simp only [fileBlocks, rootSize, entriesPerBlock, sizeofDirEntry, blockSize]
  omega

theorem rootSize_sub (n : ℕ) : rootSize n - n * sizeofDirEntry
    = (entriesPerBlock - n % entriesPerBlock) * sizeofDirEntry := by
  simp only [rootSize, entriesPerBlock, sizeofDirEntry, blockSize]
  omega

theorem le_rootSize (n : ℕ) : n * sizeofDirEntry ≤ rootSize n := by
  simp only [rootSize, sizeofDirEntry, blockSize]
  omega

theorem dirBytes_replicate (n : ℕ) :
    dirBytes (List.replicate n .zero) = List.replicate (n * sizeofDirEntry) 0 := by
  induction n with
  | zero => rfl
  | succ n ih =>
    rw [List.replicate_succ', dirBytes_concat, ih, Nat.succ_mul, List.replicate_add]
    rfl

end Root

/-! #### The calls of the kernel -/

section Read

variable {s : FsState BlockStore} {A : MapState} {name : List UInt8} {count : ℕ}
  {es : List DirEntry}

/-- The kernel starts from a file system. -/
theorem fsInv_started (h : HoldsFs .mkfs t.blocks) :
    (bitmapCache .mkfs SuperBlock.layout_mkfs).FsInv t.started
      (BlockStore.abs .mkfs ⟨t.blocks, ∅⟩) :=
  ⟨⟨⟨h.bits, fun n hn => absurd hn (Finset.notMem_empty n)⟩, rfl⟩, h.consistent,
    fun _ _ hi => nomatch hi⟩

/-- The kernel reads the inode whose number is in the first entry with the name. -/
theorem wp_kernelRead (h : (bitmapCache .mkfs SuperBlock.layout_mkfs).FsInv s A)
    (hroot : files .mkfs A.view rootInodeNo = some (dirBytes es))
    (htype : (diskEntry .mkfs A.view rootInodeNo).type = inodeDirectory)
    (hcount : count < usizeSize) :
    wp (kernelRead name count)
      (fun r _ => r.1 = (scan es (fileName name)).1 ∧ ∀ l, files .mkfs A.view r.1 = some l →
        r.2 = .bytes (l.take count) (min count l.length))
      (fun _ => files .mkfs A.view (scan es (fileName name)).1 = none) s := by
  have hl := SuperBlock.layout_mkfs
  set M := bitmapCache .mkfs SuperBlock.layout_mkfs with hM
  have hused : InUse .mkfs A.view rootInodeNo := MapCache.files_ne_none.mp (by rw [hroot]; simp)
  simp only [kernelRead, wp_bind]
  refine MapCache.wp_fsCall_get (M := M) hl h hused fun t ht hmem => ?_
  obtain ⟨root, hmem⟩ := hmem
  have hlo := ht.loaded _ _ hmem
  refine wp_inodeOf (fun hnone => by rw [hmem] at hnone; cases hnone) fun root' hroot' => ?_
  obtain rfl : root = root' := Option.some.inj (hmem.symm.trans hroot')
  rw [wp_onStore]
  refine MapCache.wp_inodeLookup (M := M) ht.store ht.consistent hlo hroot
    (by rw [hlo.entry, htype]) fun store hstore => ?_
  have hinv : M.FsInv ⟨store, t.inodes⟩ A := ⟨hstore, ht.consistent, ht.loaded⟩
  by_cases hno : InUse .mkfs A.view (scan es (fileName name)).1
  · refine MapCache.wp_fsCall_get (M := M) hl hinv hno fun u hu hmem => ?_
    obtain ⟨inode, hmem⟩ := hmem
    obtain ⟨l, hfile⟩ := Option.ne_none_iff_exists'.mp (MapCache.files_ne_none.mpr hno)
    refine wp_mono (MapCache.wp_fsCall (M := M) hl hu hcount) (fun b v hb => ?_) fun e he =>
      absurd ?_ he
    · obtain ⟨B, -, l', hl', hb, -⟩ := hb
      refine ⟨rfl, fun k hk => ?_⟩
      obtain rfl := Option.some.inj (hl'.symm.trans hk)
      exact hb
    · exact ⟨by rw [hmem]; simp, l, hfile, Nat.zero_le _, by rwa [Nat.zero_add]⟩
  · -- whatever there is under the number, it is no file
    have hnone : files .mkfs A.view (scan es (fileName name)).1 = none := if_neg hno
    refine wp_mono (wp_of_returns (Q := fun _ x => wp _ _ _ x) fun _ x _ => ?_) (fun _ _ hx => hx)
      fun _ _ => hnone
    refine wp_mono (wp_of_returns (Q := fun b y => wp _ _ _ y) fun b y _ => ?_) (fun _ _ hy => hy)
      fun _ _ => hnone
    rw [wp_pure]
    exact ⟨rfl, fun l hl => absurd (hnone.symm.trans hl) (by simp)⟩

/-- The inode that is read has a number of the super block. -/
theorem kernelRead_lt {r : ℕ × FsResult} {s' : FsState BlockStore}
    (h : (kernelRead name count).run s = .ok (r, s')) : r.1 < ninodes := by
  have hwp : wp (kernelRead name count) (fun r _ => r.1 < ninodes) (fun _ => True) s := by
    simp only [kernelRead, wp_bind]
    refine wp_of_returns fun _ s₁ _ => wp_of_returns fun root s₂ _ => wp_of_returns fun r s₃ _ => ?_
    by_cases hlt : r.1 < ninodes
    · refine wp_of_returns fun _ s₄ _ => wp_of_returns fun b s₅ _ => ?_
      rw [wp_pure]
      exact hlt
    · rw [fsCall, wp_bind, inodeGet, if_pos (.inr (Nat.not_lt.mp hlt)), wp_throw]
      trivial
  have hdone := wp_run hwp h
  exact hdone

end Read

/-! ### The image -/

section WellFormed

variable {files : List HostFile} {file : HostFile} {k : ℕ}

/-- The entries of the root directory in the image: behind those of the files the last block is
filled up with empty ones. -/
def paddedEntries (files : List HostFile) : List DirEntry :=
  rootEntries files ++
    List.replicate (entriesPerBlock - (files.length + 2) % entriesPerBlock) .zero

theorem rootSize_lt (hlen : files.length + 2 ≤ ninodes) : rootSize (files.length + 2) < 2 ^ 32 := by
  simp only [rootSize, sizeofDirEntry, blockSize, ninodes] at *
  omega

theorem length_rootBytes (files : List HostFile) :
    (dirBytes (rootEntries files)).length = (files.length + 2) * sizeofDirEntry := by
  rw [MapCache.length_dirBytes, length_rootEntries]

/-- The files in the image, when the entries do not fill the last block. -/
theorem Image.Holds.ended (hm : m.Holds .mkfs Image.blank.blocks files)
    (hlen : files.length + 2 ≤ ninodes) (hrem : (files.length + 2) % entriesPerBlock ≠ 0) :
    ∃ D, (m.ended files).Good .mkfs D (Function.update (filesOf files) rootInodeNo
      (some (dirBytes (paddedEntries files)))) := by
  have hgood := hm.good.finish (d := usedBits m.freeblock) SuperBlock.layout_mkfs filesOf_root
    (by rw [length_rootBytes]; exact le_rootSize _) (rootSize_lt hlen)
    (by rw [length_rootBytes]; exact (fileBlocks_rootSize _).mpr hrem)
  rw [length_rootBytes, rootSize_sub, ← dirBytes_replicate] at hgood
  refine ⟨Function.update Image.blank.blocks SuperBlock.mkfs.bitmapStart (usedBits m.freeblock), ?_⟩
  rw [paddedEntries, dirBytes_append]
  exact hgood

theorem bits_ended (m : Image) (files : List HostFile) {n : ℕ} (hn : n < fssize) :
    bitOf .mkfs (m.ended files).blocks n = decide (n < (m.ended files).freeblock) :=
  bitOf_finish SuperBlock.layout_mkfs (by decide) (Nat.lt_of_lt_of_le hn (by decide))

/-- Every file that is in the image is found and read, when the names are different. -/
theorem read_iff {D : ℕ → BlockData} (hlen : files.length + 2 ≤ ninodes)
    (hgood : t.Good .mkfs D (Function.update (filesOf files) rootInodeNo
      (some (dirBytes (paddedEntries files)))))
    (hfs : HoldsFs .mkfs t.blocks) (hfile : files[k]? = some file) :
    (∀ count < usizeSize, ∃ s, (kernelRead file.storedName count).run t.started
      = .ok ((k + 2, .bytes (file.bytes.take count) (min count file.bytes.length)), s)) ↔
      ∀ j < k + 2, (storedNames files)[j]? ≠ (storedNames files)[k + 2]? := by
  set g := Function.update (filesOf files) rootInodeNo (some (dirBytes (paddedEntries files)))
    with hg
  have hroot : g rootInodeNo = some (dirBytes (paddedEntries files)) := Function.update_self _ _ _
  have hself : g (k + 2) = some file.bytes := by
    rw [hg, Function.update_of_ne (add_two_ne_root k), filesOf_add_two, hfile, Option.map_some]
  have htype : (diskEntry .mkfs t.blocks rootInodeNo).type = inodeDirectory :=
    (hgood.kind _ (hgood.inUse hroot)).2.trans (if_pos rfl)
  have hdir := (congrFun hgood.files _).trans hroot
  have hstart := fsInv_started hfs
  rw [← scan_rootEntries hlen _ hfile]
  constructor
  · intro hread
    obtain ⟨s, hrun⟩ := hread 0 (by decide)
    exact (wp_run (wp_kernelRead hstart hdir htype (by decide)) hrun).1.symm
  · intro hno count hcount
    have hread : OsLab.files .mkfs t.blocks (k + 2) = some file.bytes :=
      (congrFun hgood.files _).trans hself
    have hdone : ∃ r s, (kernelRead file.storedName count).run t.started = .ok (r, s) ∧
        r.1 = k + 2 ∧ r.2 = .bytes (file.bytes.take count) (min count file.bytes.length) := by
      refine exists_run_of_wp (wp_mono (wp_kernelRead hstart hdir htype hcount)
        (fun r _ hr => ?_) fun _ hnone => ?_)
      · obtain ⟨hnumber, hb⟩ := hr
        rw [paddedEntries, hno] at hnumber
        refine ⟨hnumber, hb _ ?_⟩
        rw [hnumber]
        exact hread
      · rw [paddedEntries, hno] at hnone
        exact absurd (hread.symm.trans hnone) (by simp)
    obtain ⟨⟨no, b⟩, s, hrun, rfl, rfl⟩ := hdone
    exact ⟨s, hrun⟩

/-- There is an inode for each file that is found. -/
theorem Image.WellFormed.length_le (h : t.WellFormed files) : files.length + 2 ≤ ninodes := by
  cases hlast : files[files.length - 1]? with
  | none =>
    have hzero : files.length = 0 := by
      have := List.getElem?_eq_none_iff.mp hlast
      omega
    rw [hzero]
    decide
  | some file =>
    obtain ⟨s, hrun⟩ := h.read _ _ hlast 0 (by decide)
    have hlt := kernelRead_lt hrun
    dsimp only at hlt
    omega

/-- When the entries fill the last block, the block behind it is missing. -/
theorem Image.Holds.mod_ne_zero (hm : m.Holds .mkfs Image.blank.blocks files)
    (hlen : files.length + 2 ≤ ninodes) (hwell : (m.ended files).WellFormed files) :
    (files.length + 2) % entriesPerBlock ≠ 0 := by
  intro h0
  have hmore : fileBlocks ((files.length + 2) * sizeofDirEntry)
      < fileBlocks (rootSize (files.length + 2)) :=
    Nat.lt_of_le_of_ne (MapCache.fileBlocks_mono (le_rootSize _)) fun heq =>
      (fileBlocks_rootSize _).mp heq.symm h0
  have hmax : fileBlocks ((files.length + 2) * sizeofDirEntry) < inodeMaxBlocks :=
    Nat.lt_of_le_of_lt (MapCache.fileBlocks_mono (Nat.mul_le_mul_right _ hlen)) (by decide)
  rw [← length_rootBytes] at hmore hmax
  obtain ⟨hlt, hzero⟩ := hm.good.missing_block (d := usedBits m.freeblock)
    SuperBlock.layout_mkfs filesOf_root (rootSize_lt hlen) hmore hmax
  refine hwell.mapped _ _ hlt ?_
  rwa [Nat.mul_div_cancel _ (by decide)]

/-- **The image of `mkfs`** is a well-formed file system with the files exactly when there is an
inode for each file, the entries do not fill the last block of the root directory, and the names
differ in their first 14 bytes. -/
theorem mkfs_wellFormed_iff (files : List HostFile) (t : Image) (h : mkfs files = .ok t) :
    t.WellFormed files ↔ files.length + 2 ≤ ninodes ∧
      (files.length + 2) % entriesPerBlock ≠ 0 ∧ (storedNames files).Nodup := by
  have hlength : (storedNames files).length = files.length + 2 := by
    rw [storedNames, List.length_cons, List.length_cons, List.length_map]
  constructor
  · intro hwell
    have hlen := hwell.length_le
    obtain ⟨m, hm, rfl⟩ := holds_of_mkfs hlen h
    have hrem := hm.mod_ne_zero hlen hwell
    obtain ⟨D, hgood⟩ := hm.ended hlen hrem
    have hfs := hgood.holdsFs fun k hk => bits_ended m files hk
    refine ⟨hlen, hrem, List.nodup_iff_getElem?_ne_getElem?.mpr fun i j hij hj => ?_⟩
    match j with
    | 0 => exact absurd hij (Nat.not_lt_zero _)
    | 1 =>
      obtain rfl : i = 0 := by omega
      simp [storedNames, dotName, dotdotName]
    | k + 2 =>
      have hk : k < files.length := by omega
      have hfile := List.getElem?_eq_getElem hk
      exact (read_iff hlen hgood hfs hfile).mp (hwell.read k _ hfile) i hij
  · rintro ⟨hlen, hrem, hnodup⟩
    obtain ⟨m, hm, rfl⟩ := holds_of_mkfs hlen h
    obtain ⟨D, hgood⟩ := hm.ended hlen hrem
    have hfs := hgood.holdsFs fun k hk => bits_ended m files hk
    refine ⟨fun i p hp => ?_, hgood.consistent.owns.inj,
      fun x hx => hgood.toSane.inData (hgood.consistent.owns.mem_used hx),
      fun n hn => bits_ended m files hn, fun k file hfile => ?_⟩
    · have hmaps := hgood.consistent.maps i
      have hlt := div_lt_fileBlocks hp
      exact (hmaps.block _ (Nat.lt_of_lt_of_le hlt hmaps.le)).mpr hlt
    · have hk := (List.getElem?_eq_some_iff.mp hfile).1
      exact (read_iff hlen hgood hfs hfile).mpr fun j hj =>
        List.nodup_iff_getElem?_ne_getElem?.mp hnodup j (k + 2) hj (by omega)

/-- Files that are not too long, with room for their blocks, get an image when each can be
opened. -/
theorem mkfs_ok (hlen : files.length + 2 ≤ ninodes)
    (hcost : filesCost .mkfs (filesOf files) ≤ SuperBlock.mkfs.numDataBlocks)
    (hsize : ∀ file ∈ files, file.bytes.length ≤ inodeMaxBytes ∧ file.reads ≠ none) :
    ∃ t, mkfs files = .ok t := by
  refine (mkfs_ok_iff hlen).mpr ⟨⟨hcost, fun i l hl => ?_⟩, fun file hfile => (hsize file hfile).2⟩
  rw [filesOf] at hl
  split at hl
  · rw [← Option.some.inj hl, length_rootBytes]
    exact Nat.le_trans (Nat.mul_le_mul_right _ hlen) (by decide)
  · split at hl
    · obtain ⟨file, hfile, rfl⟩ := Option.map_eq_some_iff.mp hl
      exact (hsize file (List.mem_of_getElem? hfile)).1
    · cases hl

/-- `/_sh`, which is read in two parts. -/
def shFile : HostFile := ⟨[47, 95, 115, 104], by decide, some [[1, 2], [3], []]⟩

/-- The kernel finds it as `sh`. -/
theorem mkfs_wellFormed_sh : ∃ t, mkfs [shFile] = .ok t ∧ t.WellFormed [shFile] := by
  have hlen : [shFile].length + 2 ≤ ninodes := by decide
  obtain ⟨t, ht⟩ := mkfs_ok hlen (by decide +kernel) fun file hfile => by
    obtain rfl := List.mem_singleton.mp hfile
    exact ⟨by decide, by simp [shFile]⟩
  exact ⟨t, ht, (mkfs_wellFormed_iff _ t ht).mpr (by decide)⟩

/-- A file without bytes. -/
def emptyFile (c : UInt8) (hc : c ≠ 0) : HostFile :=
  ⟨[c], by simpa using hc.symm, some []⟩

/-- Thirty files without bytes: with `.` and `..` there are 32 entries, which fill a block. -/
def thirtyFiles : List HostFile :=
  List.ofFn fun k : Fin 30 => emptyFile (.ofNat (97 + k)) (by revert k; decide)

theorem mkfs_thirty : ∃ t, mkfs thirtyFiles = .ok t ∧ ¬ t.WellFormed thirtyFiles := by
  have hlen : thirtyFiles.length = 30 := List.length_ofFn
  have hle : thirtyFiles.length + 2 ≤ ninodes := by
    rw [hlen]
    decide
  obtain ⟨t, ht⟩ := mkfs_ok hle (by decide +kernel) fun file hfile => by
    obtain ⟨k, rfl⟩ := List.mem_ofFn.mp hfile
    exact ⟨Nat.zero_le _, by simp [emptyFile]⟩
  refine ⟨t, ht, fun hwell => ?_⟩
  obtain ⟨m, hm, rfl⟩ := holds_of_mkfs hle ht
  refine hm.mod_ne_zero hle hwell ?_
  rw [hlen]
  decide

end WellFormed

end OsLab.Mkfs
