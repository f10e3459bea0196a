/-
The index of a directory entry (`inode_lookup`, `inode_insert` and `inode_remove` of `fs/inode.c`).

`inode_lookup` and `inode_remove` count entries, `inode_insert` returns an offset in bytes; and
`inode_remove` takes any index, whose offset is a `usize`.

* `Identifies` — an index is that of the new entry for `inode_lookup` and for `inode_remove`;
  `insert_identifies_iff` — the result of `inode_insert` is, in an empty directory only;
* `LeavesAlone` — `inode_remove` changes nothing; `remove_alone_iff` — just for the entries that
  are empty already, where the index is taken modulo 2^60.
-/
import OsLab.Fs.Directory

namespace OsLab

/-- An entry is what is written of it. -/
theorem DirEntry.toBytes_injective {e e' : DirEntry} (h : e.toBytes = e'.toBytes) : e = e' := by
  rw [← DirEntry.ofBytes_toBytes e, h, DirEntry.ofBytes_toBytes]

namespace MapCache

section Dirs

variable {sb : SuperBlock} {σ : Type} (M : MapCache sb σ)

/-- Inode `i` is loaded, and is a directory with the entries `es`. -/
structure HasDir (s : σ) (i : ℕ) (inode : Inode) (es : List DirEntry) : Prop where
  ok : M.Ok s
  consistent : Consistent sb (M.abs s)
  loaded : Loaded sb (M.abs s).view i inode
  files : files sb (M.abs s).view i = some (dirBytes es)
  type : inode.entry.type = inodeDirectory

/-- After the entry for `name` has been added behind `es`, `inode_lookup` stores `index`, and
`inode_remove` of `index` empties that entry and nothing else. -/
structure Identifies (op : ℕ) (s : σ) (i : ℕ) (inode : Inode) (es : List DirEntry)
    (name : ℕ → UInt8) (index : ℕ) : Prop where
  lookup : ∃ no t, (inodeLookup M.cache inode name).run s = .ok ((no, some index), t)
  remove : ∃ inode' t, (inodeRemove sb M.cache (some op) inode index).run s = .ok (inode', t) ∧
    OsLab.files sb (M.abs t).view
      = Function.update (OsLab.files sb (M.abs s).view) i (some (dirBytes (es ++ [.zero])))

/-- `inode_remove` returns, and the inode, the files and the blocks of all inodes are as before. -/
def LeavesAlone (op : ℕ) (s : σ) (inode : Inode) (index : ℕ) : Prop :=
  ∃ inode' t, (inodeRemove sb M.cache (some op) inode index).run s = .ok (inode', t) ∧
    inode'.entry = inode.entry ∧
    OsLab.files sb (M.abs t).view = OsLab.files sb (M.abs s).view ∧
    ∀ j k, blockOf (diskEntry sb (M.abs t).view j) (M.abs t).view k
      = blockOf (diskEntry sb (M.abs s).view j) (M.abs s).view k

end Dirs

/-! ### The result of `inode_insert` -/

section Insert

variable {sb : SuperBlock} {σ : Type} {M : MapCache sb σ} {s t : σ} {op i no r : ℕ}
  {inode inode' : Inode} {es : List DirEntry} {name : ℕ → UInt8}

/-- The first entry with a name that was not there is the new one. -/
theorem scan_append {d : DirEntry} {k : List UInt8} (habsent : ∀ e ∈ es, e.key ≠ k)
    (hkey : d.key = k) : scan (es ++ [d]) k = (d.inodeNo.toNat, some es.length) := by
  have hlen : (es ++ [d]).length = es.length + 1 := by simp
  have hget : (es ++ [d])[es.length]? = some d := List.getElem?_concat_length
  have hfirst : firstIndex (hasKey (es ++ [d]) k) (es ++ [d]).length = some es.length := by
    refine firstIndex_eq (by omega) (by simp [hasKey, hkey]) fun j hj => ?_
    rw [hasKey, decide_eq_false_iff_not, List.getElem?_append_left hj, Option.map_eq_some_iff]
    rintro ⟨e, he, heq⟩
    exact habsent e (List.mem_of_getElem? he) heq
  rw [scan, hfirst, found, hget]
  rfl

/-- A name that is in no entry is not found. -/
theorem scan_absent {k : List UInt8} (habsent : ∀ e ∈ es, e.key ≠ k) : scan es k = (0, none) := by
  cases hfirst : firstIndex (hasKey es k) es.length with
  | none => rw [scan, hfirst, found]
  | some j =>
    obtain ⟨-, htest, -⟩ := firstIndex_eq_some hfirst
    obtain ⟨e, he, heq⟩ := Option.map_eq_some_iff.mp (of_decide_eq_true htest)
    exact absurd heq (habsent e (List.mem_of_getElem? he))

/-- What an `inode_insert` of a name that is not there has done when it returns. -/
theorem HasDir.insert (hl : sb.Layout) (h : M.HasDir s i inode es)
    (habsent : ∀ e ∈ es, e.key ≠ cstr name fileNameMaxLength)
    (hrun : (inodeInsert sb M.cache (some op) inode name no).run s = .ok ((r, inode'), t)) :
    r = es.length * sizeofDirEntry ∧ ∃ d, d.key = cstr name fileNameMaxLength ∧
      M.HasDir t i inode' (es ++ [d]) := by
  have hscan := scan_absent habsent
  have hat : M.At s (M.abs s) := ⟨h.ok, rfl⟩
  by_cases hmax : es.length * sizeofDirEntry + sizeofDirEntry ≤ inodeMaxBytes
  · have hwp : wp (inodeInsert sb M.cache (some op) inode name no)
        (fun x u => x.1 = es.length * sizeofDirEntry ∧ ∃ d, d.key = cstr name fileNameMaxLength ∧
          M.HasDir u i x.2 (es ++ [d])) (fun _ => True) s := by
      refine wp_inodeInsert hl hat h.consistent h.loaded h.files h.type (fun hne => ?_)
        (fun _ => hmax) (fun _ _ _ => trivial)
        fun _ d f B u hu hup hc hlo hf hkey _ hfiles => ⟨rfl, d, hkey, ?_⟩
      · rw [hscan] at hne
        exact absurd rfl hne
      · obtain ⟨hok, rfl⟩ := hu
        refine ⟨hok, hc, hlo, ?_, hf.trans h.type⟩
        rw [hfiles, Function.update_self]
    have hdone := wp_run hwp hrun
    exact hdone
  · -- the write does not get past its assertion
    obtain ⟨hlen, husize⟩ := index_lt h.loaded h.files
    have hpanic : wp (inodeInsert sb M.cache (some op) inode name no) (fun _ _ => False)
        (fun _ => True) s := by
      rw [inodeInsert, if_pos h.type, wp_bind]
      refine wp_inodeLookup hat h.consistent h.loaded h.files h.type fun u hu => ?_
      rw [hscan, if_neg (fun hne => hne rfl)]
      simp only [wp_bind, hlen, inodeWrite]
      rw [Nat.mod_eq_of_lt husize, if_neg (fun hand => hmax hand.2.1)]
      trivial
    exact (wp_run hpanic hrun).elim

end Insert

/-- The offset that is returned is the index just when it is 0. -/
theorem identifies_iff {sb : SuperBlock} {σ : Type} {M : MapCache sb σ} {t : σ} {op i : ℕ}
    {inode : Inode} {es : List DirEntry} {name : ℕ → UInt8} {d : DirEntry} (hl : sb.Layout)
    (h : M.HasDir t i inode (es ++ [d]))
    (habsent : ∀ e ∈ es, e.key ≠ cstr name fileNameMaxLength)
    (hkey : d.key = cstr name fileNameMaxLength) :
    M.Identifies op t i inode es name (es.length * sizeofDirEntry) ↔ es = [] := by
  have hat : M.At t (M.abs t) := ⟨h.ok, rfl⟩
  have hlookup : ∀ E : Fault → Prop, wp (inodeLookup M.cache inode name)
      (fun x _ => x = (d.inodeNo.toNat, some es.length)) E t := fun E => by
    rw [← scan_append habsent hkey]
    exact wp_inodeLookup hat h.consistent h.loaded h.files h.type fun _ _ => rfl
  constructor
  · rintro ⟨⟨no, u, hrun⟩, -⟩
    have heq := wp_run (hlookup fun _ => True) hrun
    have hlen : es.length * sizeofDirEntry = es.length := Option.some.inj (Prod.mk.inj heq).2
    have hzero : es.length = 0 := by
      have h16 : es.length * 16 = es.length := hlen
      omega
    exact List.length_eq_zero_iff.mp hzero
  · rintro rfl
    constructor
    · obtain ⟨x, u, hrun, rfl⟩ := exists_run_of_wp (hlookup fun _ => False)
      exact ⟨_, u, hrun⟩
    · have hwp : wp (inodeRemove sb M.cache (some op) inode 0)
          (fun _ u => files sb (M.abs u).view
            = Function.update (files sb (M.abs t).view) i (some (dirBytes [.zero])))
          (fun _ => False) t := by
        refine wp_inodeRemove hl hat h.consistent h.loaded h.files (Nat.succ_pos _)
          fun f B u hu _ _ _ _ hfiles => ?_
        obtain ⟨-, rfl⟩ := hu
        exact hfiles
      obtain ⟨inode', u, hrun, hfiles⟩ := exists_run_of_wp hwp
      exact ⟨inode', u, hrun, hfiles⟩

/-! ### Writing what is there -/

section Same

variable {sb : SuperBlock} {σ : Type} {M : MapCache sb σ} {s : σ} {A : MapState}
  {E : Fault → Prop} {ctx : Option ℕ} {i offset count : ℕ} {inode : Inode}
  {src : ℕ → UInt8} {ents : ℕ → InodeEntry}

/-- The loop is over when all bytes have been moved. -/
theorem forChunks_done {α : Type} (body : ℕ → ℕ → α → StateT σ (Except Fault) α) (fuel offset : ℕ)
    (x : α) : forChunks count body fuel offset count x = pure x := by
  cases fuel with
  | zero => rfl
  | succ fuel => rw [forChunks, if_neg (Nat.lt_irrefl count)]

/-- One pass is enough for the bytes of one block. -/
theorem forChunks_one {α : Type} (body : ℕ → ℕ → α → StateT σ (Except Fault) α) (x : α)
    (hpos : 0 < count) (hstep : chunk offset count = count) :
    forChunks count body count offset 0 x = body offset 0 x := by
  cases count with
  | zero => exact absurd hpos (Nat.lt_irrefl 0)
  | succ n =>
    rw [forChunks, if_pos hpos]
    show (body offset 0 x >>= fun x => forChunks (n + 1) body n
      (offset + chunk offset (n + 1 - 0)) (0 + chunk offset (n + 1 - 0)) x) = _
    rw [Nat.sub_zero, hstep, Nat.zero_add]
    simp only [forChunks_done, bind_pure]

/-- Bytes of a block are stored that are in it already. -/
theorem wp_writeChunk_same {Q : Inode → σ → Prop} (h : M.At s A) (hheld : A.held = ∅)
    (ho : Owns (slots ents A.view) A.used) (he : inode.entry = ents i)
    (hm : Maps (ents i) A.view (fileBlocks (ents i).numBytes.toNat))
    (hblock : offset % blockSize + count ≤ blockSize) (hpos : 0 < count)
    (hle : offset + count ≤ (ents i).numBytes.toNat)
    (hsame : ∀ r < count, src r = byteAt (ents i) A.view (offset + r))
    (hQ : ∀ t, M.At t A → Q inode t) :
    wp (writeChunk M.cache ctx src count offset 0 inode) Q E s := by
  have hlt : offset / blockSize < fileBlocks (ents i).numBytes.toNat :=
    div_lt_fileBlocks (by omega)
  set n := blockOf (ents i) A.view (offset / blockSize) with hn
  have hne : n ≠ 0 := (hm.block _ (Nat.lt_of_lt_of_le hlt hm.le)).mpr hlt
  have hmem : n ∈ A.used := ho.mem_used (k := (i, offset / blockSize)) hne
  have hnot : n ∉ A.held := by rw [hheld]; exact Finset.notMem_empty n
  have hin := Finset.mem_insert_self n A.held
  have hstep : chunk offset (count - 0) = count := by
    rw [Nat.sub_zero, chunk]
    exact Nat.min_eq_left (by omega)
  -- the block does not change
  have hpatch : (A.view n).patch (offset % blockSize) count (fun j => src (0 + j)) = A.view n := by
    funext x
    show (if offset % blockSize ≤ x ∧ x < offset % blockSize + count
      then src (0 + (x - offset % blockSize)) else A.view n x) = A.view n x
    split
    · rename_i hx
      have hr : (x : ℕ) - offset % blockSize < count := by omega
      rw [Nat.zero_add, hsame _ hr, byteAt]
      have hdiv : (offset + (x - offset % blockSize)) / blockSize = offset / blockSize := by
        have hxlt := x.isLt
        simp only [blockSize] at *
        omega
      have hmod : (offset + (x - offset % blockSize)) % blockSize = x := by
        have hxlt := x.isLt
        simp only [blockSize] at *
        omega
      rw [hdiv, hmod, ← hn, BlockData.byte, dif_pos x.isLt]
    · rfl
  simp only [writeChunk, wp_bind]
  refine wp_inodeMap_mapped h hheld ho he hm hlt fun t ht => ?_
  refine wp_acquire ht (.inr hmem) hnot fun t ht => ?_
  refine wp_data ht hin ?_
  refine wp_store ht hin fun t ht => ?_
  refine wp_sync ht hin fun t ht => ?_
  refine wp_release ht hin fun t ht => ?_
  rw [wp_pure]
  refine hQ t ?_
  dsimp only at ht
  rw [hstep, hpatch, Function.update_eq_self, MapState.acquire_release hnot] at ht
  exact ht

/-- `inode_write` of such bytes inside the file changes nothing. -/
theorem wp_inodeWrite_same {Q : ℕ × Inode → σ → Prop} (h : M.At s A) (hheld : A.held = ∅)
    (ho : Owns (slots ents A.view) A.used) (he : inode.entry = ents i)
    (hm : Maps (ents i) A.view (fileBlocks (ents i).numBytes.toNat))
    (hblock : offset % blockSize + count ≤ blockSize) (hpos : 0 < count)
    (hle : offset + count ≤ (ents i).numBytes.toNat)
    (hsame : ∀ r < count, src r = byteAt (ents i) A.view (offset + r))
    (hQ : ∀ t, M.At t A → Q (count, inode) t) :
    wp (inodeWrite sb M.cache ctx inode src offset count) Q E s := by
  have h32 : (ents i).numBytes.toNat < 2 ^ 32 := (ents i).numBytes.toNat_lt
  have hmax : (ents i).numBytes.toNat ≤ inodeMaxBytes := by
    have hmaps := hm.le
    simp only [fileBlocks, inodeMaxBytes, inodeMaxBlocks, blockSize] at *
    omega
  have hmod : (offset + count) % usizeSize = offset + count :=
    Nat.mod_eq_of_lt (Nat.lt_of_le_of_lt hle (Nat.lt_trans h32 (by decide)))
  have hassert : offset ≤ (ents i).numBytes.toNat ∧ offset + count ≤ inodeMaxBytes ∧
      offset ≤ offset + count := ⟨by omega, by omega, by omega⟩
  have hstep : chunk offset count = count := Nat.min_eq_left (by omega)
  have hgrow : ¬(0 < count ∧ (ents i).numBytes.toNat < offset + count) := by omega
  rw [inodeWrite, hmod, he, if_pos hassert, wp_bind, forChunks_one _ inode hpos hstep]
  refine wp_writeChunk_same h hheld ho he hm hblock hpos hle hsame fun t ht => ?_
  rw [he, if_neg hgrow]
  exact hQ t ht

end Same

/-! ### The index of `inode_remove` -/

section Remove

variable {sb : SuperBlock} {σ : Type} {M : MapCache sb σ} {s : σ} {op i index : ℕ}
  {inode : Inode} {es es' : List DirEntry} {e : DirEntry}

/-- Only the index modulo 2^60 matters. -/
theorem inodeRemove_mod (cache : BlockCache (StateT σ (Except Fault))) (ctx : Option ℕ) :
    inodeRemove sb cache ctx inode index = inodeRemove sb cache ctx inode (index % 2 ^ 60) := by
  have hoffset : index * 16 % 2 ^ 64 = index % 2 ^ 60 * 16 % 2 ^ 64 := by omega
  unfold inodeRemove
  rw [show index * sizeofDirEntry % usizeSize = index % 2 ^ 60 * sizeofDirEntry % usizeSize
    from hoffset]

/-- The bytes of a directory are those of its entries. -/
theorem byteAt_entry {v : ℕ → BlockData} {f : InodeEntry} (hf : content f v = dirBytes es)
    (he : es[index]? = some e) {r : ℕ} (hr : r < sizeofDirEntry) :
    byteAt f v (index * sizeofDirEntry + r) = e.toBytes.getD r 0 := by
  have hrec := take_drop_flatMap DirEntry.length_toBytes he
  have hlt : index < es.length := (List.getElem?_eq_some_iff.mp he).1
  have hmul : index * sizeofDirEntry + sizeofDirEntry ≤ es.length * sizeofDirEntry := by
    rw [← Nat.succ_mul]
    exact Nat.mul_le_mul_right _ hlt
  have hlen : f.numBytes.toNat = es.length * sizeofDirEntry := by
    rw [← length_content (e := f) (v := v), hf, length_dirBytes]
  have hget : (content f v)[index * sizeofDirEntry + r]?
      = some (byteAt f v (index * sizeofDirEntry + r)) := by
    rw [content, List.getElem?_map, List.getElem?_range (by omega)]
    rfl
  rw [hf] at hget
  rw [← hrec, List.getD_eq_getElem?_getD, List.getElem?_take, if_pos hr, List.getElem?_drop]
  show _ = ((dirBytes es)[index * sizeofDirEntry + r]?).getD 0
  rw [hget]
  rfl

/-- Directories with the same bytes have the same entries. -/
theorem dirBytes_injective (h : dirBytes es = dirBytes es') : es = es' := by
  have hlen : es.length = es'.length := by
    have hbytes := congrArg List.length h
    rw [length_dirBytes, length_dirBytes] at hbytes
    exact Nat.eq_of_mul_eq_mul_right (by decide) hbytes
  refine List.ext_getElem hlen fun j hj hj' => ?_
  have hj₁ := take_drop_flatMap DirEntry.length_toBytes (List.getElem?_eq_getElem hj)
  have hj₂ := take_drop_flatMap DirEntry.length_toBytes (List.getElem?_eq_getElem hj')
  refine DirEntry.toBytes_injective (hj₁.symm.trans (Eq.trans ?_ hj₂))
  exact congrArg (fun l => (l.drop (j * sizeofDirEntry)).take sizeofDirEntry) h

/-- An entry that is empty is removed without a trace. -/
theorem HasDir.remove_empty (h : M.HasDir s i inode es) (he : es[index]? = some .zero) :
    M.LeavesAlone op s inode index := by
  have hat : M.At s (M.abs s) := ⟨h.ok, rfl⟩
  obtain ⟨hlen, husize⟩ := index_lt h.loaded h.files
  have hlt : index < es.length := (List.getElem?_eq_some_iff.mp he).1
  have hmul : index * sizeofDirEntry + sizeofDirEntry ≤ es.length * sizeofDirEntry := by
    rw [← Nat.succ_mul]
    exact Nat.mul_le_mul_right _ hlt
  have hcontent : content (liveEntry sb (M.abs s).view i) (M.abs s).view = dirBytes es :=
    Option.some.inj (h.loaded.files.1.symm.trans h.files)
  have hbytes : (liveEntry sb (M.abs s).view i).numBytes.toNat = es.length * sizeofDirEntry := by
    rw [← h.loaded.entry_live]
    exact hlen
  have hwp : wp (inodeRemove sb M.cache (some op) inode index)
      (fun x u => x = inode ∧ M.At u (M.abs s)) (fun _ => False) s := by
    rw [inodeRemove, Nat.mod_eq_of_lt (by omega)]
    simp only [wp_bind, wp_pure]
    refine wp_readEntry hat h.consistent h.loaded h.files he fun t ht => ?_
    refine wp_inodeWrite_same ht h.consistent.held h.consistent.owns h.loaded.entry_live
      (h.consistent.maps i) ?_ (by decide) (by omega) (fun r hr => ?_) fun t ht => ⟨rfl, ht⟩
    · show index * 16 % 512 + 16 ≤ 512
      omega
    · exact (byteAt_entry hcontent he hr).symm
  obtain ⟨x, u, hrun, rfl, -, habs⟩ := exists_run_of_wp hwp
  exact ⟨x, u, hrun, rfl, by rw [habs], fun j k => by rw [habs]⟩

/-- Otherwise the call panics or changes the entries. -/
theorem HasDir.remove_other (hl : sb.Layout) (h : M.HasDir s i inode es)
    (hlt : index < 2 ^ 60) (halone : M.LeavesAlone op s inode index) :
    es[index]? = some .zero := by
  obtain ⟨inode', t, hrun, -, hfiles, -⟩ := halone
  have hat : M.At s (M.abs s) := ⟨h.ok, rfl⟩
  obtain ⟨hlen, husize⟩ := index_lt h.loaded h.files
  have hmod : index * sizeofDirEntry % usizeSize = index * sizeofDirEntry := by
    refine Nat.mod_eq_of_lt ?_
    show index * 16 < 2 ^ 64
    omega
  have hsame : ∀ es', OsLab.files sb (M.abs t).view
      = Function.update (OsLab.files sb (M.abs s).view) i (some (dirBytes es')) → es' = es := by
    intro es' hfiles'
    rw [hfiles] at hfiles'
    have hi := congrFun hfiles' i
    rw [Function.update_self, h.files] at hi
    exact (dirBytes_injective (Option.some.inj hi)).symm
  rcases Nat.lt_trichotomy index es.length with hin | hend | hout
  · -- an entry of the directory is emptied
    have hwp : wp (inodeRemove sb M.cache (some op) inode index)
        (fun _ u => OsLab.files sb (M.abs u).view = Function.update (OsLab.files sb (M.abs s).view) i
          (some (dirBytes (es.set index .zero)))) (fun _ => True) s := by
      refine wp_inodeRemove hl hat h.consistent h.loaded h.files hin
        fun f B u hu _ _ _ _ hfiles' => ?_
      obtain ⟨-, rfl⟩ := hu
      exact hfiles'
    have hdone := wp_run hwp hrun
    have hset := hsame _ hdone
    rw [← hset, List.getElem?_set_self hin]
  · -- one past the last entry: nothing is read, and an entry is added
    subst hend
    have hwp : wp (inodeRemove sb M.cache (some op) inode es.length)
        (fun _ u => OsLab.files sb (M.abs u).view = Function.update (OsLab.files sb (M.abs s).view) i
          (some (dirBytes (es ++ [.zero])))) (fun _ => True) s := by
      rw [inodeRemove, hmod]
      simp only [wp_bind, wp_pure]
      refine wp_mono (wp_read_file hat h.consistent h.loaded h.files
        (Nat.le_of_eq (length_dirBytes es).symm) husize) (fun x u hu => ?_) fun _ he => he
      by_cases hmax : es.length * sizeofDirEntry + sizeofDirEntry ≤ inodeMaxBytes
      · refine wp_writeEntry hl hu.1 h.consistent h.loaded h.files (Nat.le_refl _)
          (overwrite_dirBytes es .zero) hmax (fun _ _ => trivial) fun f B u hu _ _ _ _ hfiles' => ?_
        obtain ⟨-, rfl⟩ := hu
        exact hfiles'
      · rw [inodeWrite, Nat.mod_eq_of_lt husize, if_neg fun hand => hmax hand.2.1]
        trivial
    have hdone := wp_run hwp hrun
    have happend := hsame _ hdone
    exact absurd (congrArg List.length happend) (by simp)
  · -- behind it the read does not get past its assertion
    have hwp : wp (inodeRemove sb M.cache (some op) inode index) (fun _ _ => False)
        (fun _ => True) s := by
      have hgt : ¬index * sizeofDirEntry ≤ inode.entry.numBytes.toNat := by
        rw [hlen]
        exact Nat.not_le.mpr (Nat.mul_lt_mul_of_pos_right hout (by decide))
      rw [inodeRemove, hmod]
      simp only [wp_bind, inodeRead]
      rw [if_neg fun hand => hgt hand.1]
      trivial
    exact (wp_run hwp hrun).elim

end Remove

end MapCache

/-! ### A directory on a disk -/

/-- An entry for inode 5 with the name "a". -/
def DirEntry.a : DirEntry := ⟨5, fun k => if k.val = 0 then 97 else 0⟩

/-- A directory that has been written to inode 1, and what a function finds there. -/
theorem hasDir_of_run {β : Type} (es : List DirEntry) (f : BlockStore → Inode → β) (b : β)
    (hrun : ((fsSystem .mkfs).exec (FsState.AllowedAt .mkfs) (.blank .mkfs)
      [.alloc none inodeDirectory, .get 1, .write 0 1 (MapCache.dirBytes es) 0]).map (fun s =>
        (files .mkfs s.store.blocks 1,
          (s.inodes 1).map fun inode => (inode.entry.type, f s.store inode)))
      = some (some (MapCache.dirBytes es), some (inodeDirectory, b))) :
    ∃ s inode, mkfsCache.HasDir s 1 inode es ∧ f s inode = b := by
  obtain ⟨s, hs, heq⟩ := Option.map_eq_some_iff.mp hrun
  obtain ⟨hfiles, hinode⟩ := Prod.mk.inj heq
  obtain ⟨inode, hload, htype⟩ := Option.map_eq_some_iff.mp hinode
  obtain ⟨htype, hf⟩ := Prod.mk.inj htype
  obtain ⟨A, hA⟩ := FsState.inv_of_reachable SuperBlock.layout_mkfs
    ⟨_, FsState.init_blank, System.leads_of_exec hs⟩
  obtain ⟨hok, rfl⟩ := hA.store
  exact ⟨s.store, inode, ⟨hok, hA.consistent, hA.loaded 1 inode hload, hfiles, htype⟩, hf⟩

/-- What `inode_insert` of "b" returns. -/
def insertB (s : BlockStore) (inode : Inode) : Option ℕ :=
  ((inodeInsert .mkfs mkfsCache.cache (some 0) inode (strPtr [98]) 6).run s).toOption.map
    fun x => x.1.1

theorem run_of_insertB {s : BlockStore} {inode : Inode} {r : ℕ} (h : insertB s inode = some r) :
    ∃ inode' t, (inodeInsert .mkfs mkfsCache.cache (some 0) inode (strPtr [98]) 6).run s
      = .ok ((r, inode'), t) := by
  unfold insertB at h
  cases hrun : (inodeInsert .mkfs mkfsCache.cache (some 0) inode (strPtr [98]) 6).run s with
  | error e =>
    rw [hrun] at h
    cases h
  | ok x =>
    rw [hrun] at h
    obtain rfl : x.1.1 = r := Option.some.inj h
    exact ⟨x.1.2, x.2, rfl⟩

/-- **The result of `inode_insert`** identifies the new entry exactly in an empty directory. -/
theorem insert_identifies_iff (sb : SuperBlock) (hl : sb.Layout) (σ : Type) (M : MapCache sb σ)
    (s t : σ) (op i no r : ℕ) (inode inode' : Inode) (es : List DirEntry) (name : ℕ → UInt8)
    (h : M.HasDir s i inode es) (habsent : ∀ e ∈ es, e.key ≠ cstr name fileNameMaxLength)
    (hrun : (inodeInsert sb M.cache (some op) inode name no).run s = .ok ((r, inode'), t)) :
    M.Identifies op t i inode' es name r ↔ es = [] := by
  obtain ⟨rfl, d, hkey, hdir⟩ := h.insert hl habsent hrun
  exact MapCache.identifies_iff hl hdir habsent hkey

/-- The first entry of a directory. -/
theorem insert_identifies_first : ∃ s t inode inode',
    mkfsCache.HasDir s 1 inode [] ∧
    (inodeInsert .mkfs mkfsCache.cache (some 0) inode (strPtr [98]) 6).run s
      = .ok ((0, inode'), t) ∧
    mkfsCache.Identifies 0 t 1 inode' [] (strPtr [98]) 0 := by
  obtain ⟨s, inode, hdir, hinsert⟩ :=
    hasDir_of_run [] insertB (some 0) (by decide +kernel)
  obtain ⟨inode', t, hrun⟩ := run_of_insertB hinsert
  exact ⟨s, t, inode, inode', hdir, hrun, (insert_identifies_iff .mkfs SuperBlock.layout_mkfs _ _
    s t 0 1 6 0 inode inode' [] (strPtr [98]) hdir (List.forall_mem_nil _) hrun).mpr rfl⟩

/-- **The third entry of a directory**: `inode_insert` returns 32, and its index is 2. -/
theorem insert_identifies_third : ∃ s t inode inode',
    mkfsCache.HasDir s 1 inode [.a, .zero] ∧
    (∀ e ∈ [DirEntry.a, .zero], e.key ≠ cstr (strPtr [98]) fileNameMaxLength) ∧
    (inodeInsert .mkfs mkfsCache.cache (some 0) inode (strPtr [98]) 6).run s
      = .ok ((32, inode'), t) ∧
    ¬mkfsCache.Identifies 0 t 1 inode' [.a, .zero] (strPtr [98]) 32 := by
  have habsent : ∀ e ∈ [DirEntry.a, .zero], e.key ≠ cstr (strPtr [98]) fileNameMaxLength := by
    decide
  obtain ⟨s, inode, hdir, hinsert⟩ :=
    hasDir_of_run [.a, .zero] insertB (some 32) (by decide +kernel)
  obtain ⟨inode', t, hrun⟩ := run_of_insertB hinsert
  obtain ⟨-, d, hkey, hdir'⟩ := hdir.insert SuperBlock.layout_mkfs habsent hrun
  refine ⟨s, t, inode, inode', hdir, habsent, hrun, fun hid => ?_⟩
  have hnil := (MapCache.identifies_iff SuperBlock.layout_mkfs hdir' habsent hkey).mp hid
  cases hnil

/-- **`inode_remove` leaves everything alone** exactly when the index modulo 2^60 is that of an
entry which is empty. -/
theorem remove_alone_iff (sb : SuperBlock) (hl : sb.Layout) (σ : Type) (M : MapCache sb σ) (s : σ)
    (op i index : ℕ) (inode : Inode) (es : List DirEntry) (h : M.HasDir s i inode es) :
    M.LeavesAlone op s inode index ↔ es[index % 2 ^ 60]? = some .zero := by
  have hmod : M.LeavesAlone op s inode index ↔ M.LeavesAlone op s inode (index % 2 ^ 60) := by
    rw [MapCache.LeavesAlone, MapCache.LeavesAlone, MapCache.inodeRemove_mod]
  rw [hmod]
  exact ⟨h.remove_other hl (Nat.mod_lt _ (by decide)), h.remove_empty⟩

/-- The empty entry, by its index and by one that wraps around to it. -/
theorem remove_alone_empty : ∃ s inode, mkfsCache.HasDir s 1 inode [.a, .zero] ∧
    mkfsCache.LeavesAlone 0 s inode 1 ∧ mkfsCache.LeavesAlone 0 s inode (2 ^ 60 + 1) := by
  obtain ⟨s, inode, hdir, -⟩ := hasDir_of_run [.a, .zero] (fun _ _ => ()) ()
    (by decide +kernel)
  have hiff := fun index => remove_alone_iff .mkfs SuperBlock.layout_mkfs _ _ s 0 1 index inode
    [.a, .zero] hdir
  exact ⟨s, inode, hdir, (hiff 1).mpr rfl, (hiff (2 ^ 60 + 1)).mpr rfl⟩

/-- **Indices of no entry**: one past the last one, one behind that, and one that wraps around to
the entry "a". -/
theorem remove_not_alone : ∃ s inode, mkfsCache.HasDir s 1 inode [.a, .zero] ∧
    ¬mkfsCache.LeavesAlone 0 s inode 2 ∧ ¬mkfsCache.LeavesAlone 0 s inode 3 ∧
    ¬mkfsCache.LeavesAlone 0 s inode (2 ^ 60) := by
  obtain ⟨s, inode, hdir, -⟩ := hasDir_of_run [.a, .zero] (fun _ _ => ()) ()
    (by decide +kernel)
  have hnone : ∀ index < 2 ^ 60, mkfsCache.LeavesAlone 0 s inode index →
      [DirEntry.a, .zero][index]? = some .zero :=
    fun index hlt => hdir.remove_other SuperBlock.layout_mkfs hlt
  refine ⟨s, inode, hdir, fun hl => ?_, fun hl => ?_, fun hl => ?_⟩
  · have hget := hnone 2 (by decide) hl
    cases hget
  · have hget := hnone 3 (by decide) hl
    cases hget
  · rw [MapCache.LeavesAlone, MapCache.inodeRemove_mod] at hl
    have hget : DirEntry.a = DirEntry.zero := Option.some.inj (hnone 0 (by decide) hl)
    exact absurd (congrArg DirEntry.inodeNo hget) (by decide)

end OsLab
