/-
The inodes in use as files.

`files sb v` is the file system that a disk with content `v` stands for: each inode
in use is a list of bytes.  `Consistent` is what the inode layer keeps between its
calls, and `Loaded` what holds of an inode that has been locked once.

* `wp_alloc_file`, `wp_read_file`, `wp_write_file`, `wp_clear_file`, `wp_put_file` —
  what the functions of the inode layer do to the files.
-/
import OsLab.Fs.InodeEntries
import OsLab.Lib.Overwrite

namespace OsLab

/-- Inode `i` is allocated on the disk. -/
def InUse (sb : SuperBlock) (v : ℕ → BlockData) (i : ℕ) : Prop :=
  0 < i ∧ i < sb.numInodes ∧ (diskEntry sb v i).type ≠ inodeInvalid

instance (sb : SuperBlock) (v : ℕ → BlockData) (i : ℕ) : Decidable (InUse sb v i) :=
  inferInstanceAs (Decidable (_ ∧ _))

/-- The entries that own blocks: those of the inodes in use. -/
def liveEntry (sb : SuperBlock) (v : ℕ → BlockData) (i : ℕ) : InodeEntry :=
  if InUse sb v i then diskEntry sb v i else .zero

/-- The bytes of a file. -/
def content (e : InodeEntry) (v : ℕ → BlockData) : List UInt8 :=
  (List.range e.numBytes.toNat).map (byteAt e v)

/-- The files of a disk, by inode number. -/
def files (sb : SuperBlock) (v : ℕ → BlockData) (i : ℕ) : Option (List UInt8) :=
  if InUse sb v i then some (content (diskEntry sb v i) v) else none

/-- What holds between two calls of the inode layer: no block is held, the blocks in
use are those of the inodes in use, and these have exactly the blocks of their bytes. -/
structure Consistent (sb : SuperBlock) (A : MapState) : Prop where
  held : A.held = ∅
  owns : Owns (slots (liveEntry sb A.view) A.view) A.used
  maps : ∀ i, Maps (liveEntry sb A.view i) A.view
    (fileBlocks (liveEntry sb A.view i).numBytes.toNat)

/-- The inode in memory is number `i`, in use, and its entry is that on the disk. -/
structure Loaded (sb : SuperBlock) (v : ℕ → BlockData) (i : ℕ) (inode : Inode) : Prop where
  inodeNo : inode.inodeNo = i
  inUse : InUse sb v i
  valid : inode.valid = true
  entry : inode.entry = diskEntry sb v i

/-- The blocks that a file of `n` bytes needs, its indirect block included. -/
def blocksFor (n : ℕ) : ℕ := slotCount (fileBlocks n)

section Files

variable {sb : SuperBlock} {A B : MapState} {v : ℕ → BlockData} {i j : ℕ} {inode : Inode}
  {e : InodeEntry}

theorem liveEntry_of_inUse (h : InUse sb v i) : liveEntry sb v i = diskEntry sb v i := if_pos h

@[simp] theorem length_content : (content e v).length = e.numBytes.toNat := by simp [content]

theorem Loaded.entry_live (h : Loaded sb v i inode) : inode.entry = liveEntry sb v i := by
  rw [h.entry, liveEntry_of_inUse h.inUse]

theorem files_of_inUse (h : InUse sb v i) :
    files sb v i = some (content (diskEntry sb v i) v) := if_pos h

/-- The file of an inode in memory, and its size. -/
theorem Loaded.files (h : Loaded sb v i inode) :
    files sb v i = some (content (liveEntry sb v i) v) ∧
      (content (liveEntry sb v i) v).length = inode.entry.numBytes.toNat := by
  rw [files_of_inUse h.inUse, liveEntry_of_inUse h.inUse, length_content, h.entry]
  exact ⟨rfl, rfl⟩

theorem Loaded.length_eq {l : List UInt8} (h : Loaded sb v i inode)
    (hf : OsLab.files sb v i = some l) : l.length = inode.entry.numBytes.toNat := by
  obtain ⟨hfile, hlen⟩ := h.files
  rw [Option.some.inj (hf.symm.trans hfile), hlen]

/-- The size of a file is a `u32`. -/
theorem Loaded.length_lt {l : List UInt8} (h : Loaded sb v i inode)
    (hf : OsLab.files sb v i = some l) : l.length < 2 ^ 32 := by
  rw [h.length_eq hf]
  exact inode.entry.numBytes.toNat_lt

/-- An inode that is not disturbed keeps its bytes. -/
theorem Undisturbed.content {v' : ℕ → BlockData} (h : Undisturbed v v' e)
    (hm : Maps e v (fileBlocks e.numBytes.toNat)) : content e v' = content e v := by
  refine List.map_congr_left fun p hp => h.byteAt ?_
  have hlt := div_lt_fileBlocks (List.mem_range.mp hp)
  exact (hm.block _ (Nat.lt_of_lt_of_le hlt hm.le)).mpr hlt

/-- Which inodes are in use after an update of inode `i`. -/
theorem Updates.inUse_iff (h : Updates sb A (liveEntry sb A.view) i B e) (hpos : 0 < i)
    (hi : i < sb.numInodes) :
    InUse sb B.view j ↔ if j = i then e.type ≠ inodeInvalid else InUse sb A.view j := by
  by_cases hji : j = i
  · subst hji
    have hdisk := h.disk j hi
    rw [if_pos rfl] at hdisk
    rw [if_pos rfl, InUse, hdisk]
    exact ⟨fun h => h.2.2, fun h => ⟨hpos, hi, h⟩⟩
  · rw [if_neg hji]
    constructor
    · rintro ⟨hj, hlt, ht⟩
      rw [h.disk j hlt, if_neg hji] at ht
      exact ⟨hj, hlt, ht⟩
    · rintro ⟨hj, hlt, ht⟩
      refine ⟨hj, hlt, ?_⟩
      rwa [h.disk j hlt, if_neg hji]

/-- The entries of the inodes in use after an update of inode `i`. -/
theorem Updates.liveEntry (h : Updates sb A (liveEntry sb A.view) i B e) (hpos : 0 < i)
    (hi : i < sb.numInodes) (j : ℕ) :
    liveEntry sb B.view j = if j = i then (if e.type ≠ inodeInvalid then e else .zero)
      else liveEntry sb A.view j := by
  have hiff := h.inUse_iff (j := j) hpos hi
  by_cases hji : j = i
  · subst hji
    have hdisk := h.disk j hi
    rw [if_pos rfl] at hdisk hiff
    rw [if_pos rfl, OsLab.liveEntry, hdisk]
    simp only [hiff]
  · rw [if_neg hji] at hiff ⊢
    rw [OsLab.liveEntry, OsLab.liveEntry]
    by_cases huse : InUse sb A.view j
    · rw [if_pos (hiff.mpr huse), if_pos huse, h.disk j huse.2.1, if_neg hji]
    · rw [if_neg fun h => huse (hiff.mp h), if_neg huse]

/-- An entry without bytes has no blocks. -/
theorem Maps.empty (hm : Maps e v 0) (k : ℕ) : blockOf e v k = 0 := by
  have hind : e.indirect = 0 := by
    by_contra hne
    have hlt := hm.indirect.mp hne
    omega
  by_cases hk : k < inodeMaxBlocks
  · by_contra hne
    have hlt := (hm.block k hk).mp hne
    omega
  · have hdirect : ¬ k < inodeNumDirect := by
      simp only [inodeMaxBlocks] at hk
      omega
    rw [blockOf, if_neg hdirect, if_neg hk, hind]
    split <;> rfl

/-- **An update keeps the file system consistent.**  An inode that is freed must be
empty. -/
theorem Consistent.update (hc : Consistent sb A) (h : Updates sb A (liveEntry sb A.view) i B e)
    (hpos : 0 < i) (hi : i < sb.numInodes) (hfree : e.type = inodeInvalid → e.numBytes = 0) :
    Consistent sb B := by
  have hlive := h.liveEntry hpos hi
  have hzero : ∀ v k, blockOf .zero v k = 0 := MapCache.blockOf_blank 0
  have hempty : e.type = inodeInvalid → ∀ k, blockOf e B.view k = 0 := by
    intro ht k
    have hm := h.maps
    rw [hfree ht] at hm
    exact Maps.empty hm k
  refine ⟨h.held.trans hc.held, h.owns.congr fun x => ?_, fun j => ?_⟩
  · rw [slots_update, slots, hlive]
    by_cases hx : x.1 = i
    · rw [if_pos hx, if_pos hx]
      by_cases ht : e.type = inodeInvalid
      · rw [if_neg (by simpa using ht), hzero, hempty ht]
      · rw [if_pos ht]
    · rw [if_neg hx, if_neg hx]
      rfl
  · rw [hlive]
    by_cases hji : j = i
    · rw [if_pos hji]
      split
      · exact h.maps
      · exact MapCache.maps_blank 0 _
    · rw [if_neg hji]
      exact (h.others j hji).maps (hc.maps j)

/-- What an update of inode `i` does to the files. -/
theorem Consistent.files_update (hc : Consistent sb A)
    (h : Updates sb A (liveEntry sb A.view) i B e) (hpos : 0 < i) (hi : i < sb.numInodes) :
    files sb B.view = Function.update (files sb A.view) i
      (if e.type ≠ inodeInvalid then some (content e B.view) else none) := by
  funext j
  have hiff := h.inUse_iff (j := j) hpos hi
  by_cases hji : j = i
  · subst hji
    have hdisk := h.disk j hi
    rw [if_pos rfl] at hdisk hiff
    rw [Function.update_self, files, hdisk]
    simp only [hiff]
  · rw [if_neg hji] at hiff
    rw [Function.update_of_ne hji, files, files]
    by_cases huse : InUse sb A.view j
    · have hm := hc.maps j
      have hund := h.others j hji
      rw [liveEntry_of_inUse huse] at hm hund
      rw [if_pos (hiff.mpr huse), if_pos huse, h.disk j huse.2.1, if_neg hji, hund.content hm]
    · rw [if_neg fun h => huse (hiff.mp h), if_neg huse]

/-- The other inodes in memory stay loaded. -/
theorem Loaded.update (hl : Loaded sb A.view j inode)
    (h : Updates sb A (liveEntry sb A.view) i B e) (hpos : 0 < i) (hi : i < sb.numInodes)
    (hji : j ≠ i) : Loaded sb B.view j inode := by
  refine ⟨hl.inodeNo, ?_, hl.valid, ?_⟩
  · rw [h.inUse_iff hpos hi, if_neg hji]
    exact hl.inUse
  · rw [h.disk j hl.inUse.2.1, if_neg hji]
    exact hl.entry

end Files

namespace MapCache

variable {sb : SuperBlock} {σ : Type} {M : MapCache sb σ} {s : σ} {A B : MapState}
  {E : Fault → Prop} {ctx : Option ℕ} {i offset count : ℕ} {inode : Inode}

/-- An inode that is not in use has the zero entry, and there is a free one unless all
are in use. -/
private theorem liveEntry_of_type {v : ℕ → BlockData}
    (h : (diskEntry sb v i).type = inodeInvalid) : liveEntry sb v i = .zero :=
  if_neg fun huse => huse.2.2 h

/-- **`inode_alloc`** returns the number of an inode that is not in use, which is now an
empty file. -/
theorem wp_alloc_file {Q : ℕ → σ → Prop} {type : UInt16} (hl : sb.Layout) (h : M.At s A)
    (hc : Consistent sb A)
    (hE : ∀ e, type = inodeInvalid ∨ (∀ i, 0 < i → i < sb.numInodes → InUse sb A.view i) → E e)
    (hQ : ∀ i, 0 < i → i < sb.numInodes → ¬ InUse sb A.view i → type ≠ inodeInvalid →
      ∀ B t, M.At t B → Updates sb A (liveEntry sb A.view) i B (InodeEntry.blank type) →
      Consistent sb B → files sb B.view = Function.update (files sb A.view) i (some []) → Q i t) :
    wp (inodeAlloc sb M.cache ctx type) Q E s := by
  by_cases htype : type = inodeInvalid
  · rw [inodeAlloc, if_pos htype, wp_throw]
    exact hE _ (.inl htype)
  refine wp_inodeAlloc hl h hc.held hc.owns (fun i _ _ hinv => liveEntry_of_type hinv)
    (fun e hfull => hE e (hfull.imp id fun hall i hpos hi => ⟨hpos, hi, hall i hpos hi⟩))
    fun i hpos hi hinv B t ht hup => ?_
  have hcB := hc.update hup hpos hi fun h => absurd h htype
  refine hQ i hpos hi (fun huse => huse.2.2 hinv) htype B t ht hup hcB ?_
  rw [hc.files_update hup hpos hi, if_pos htype]
  rfl

/-- **`inode_read`** returns the bytes of the file. -/
theorem wp_read_file {l : List UInt8} (h : M.At s A) (hc : Consistent sb A)
    (hlo : Loaded sb A.view i inode) (hf : files sb A.view i = some l)
    (hoff : offset ≤ l.length) (hlt : offset + count < usizeSize) :
    wp (inodeRead M.cache inode offset count)
      (fun r t => M.At t A ∧ r.1 = (l.drop offset).take count ∧ r.2 = r.1.length) E s := by
  obtain ⟨hfile, hlen⟩ := hlo.files
  obtain rfl : content (liveEntry sb A.view i) A.view = l := Option.some.inj (hfile.symm.trans hf)
  rw [length_content] at hoff
  refine wp_mono (wp_inodeRead h hc.held hc.owns hlo.entry_live (hc.maps i) hoff hlt)
    (fun r t ht => ?_) fun _ he => he
  obtain ⟨ht, hr2, hr1⟩ := ht
  have hlen1 : r.1.length = r.2 := by rw [hr1]; simp
  refine ⟨ht, ?_, hlen1.symm⟩
  apply List.ext_getElem?
  intro p
  rw [hr1, hr2, List.getElem?_map, List.getElem?_take, List.getElem?_drop, content,
    List.getElem?_map]
  set nb := (liveEntry sb A.view i).numBytes.toNat with hnb
  by_cases hp : p < min count (nb - offset)
  · rw [List.getElem?_range hp, if_pos (by omega), List.getElem?_range (by omega)]
    rfl
  · have hnone : (List.range (min count (nb - offset)))[p]? = none :=
      List.getElem?_eq_none (by rw [List.length_range]; omega)
    rw [hnone]
    split
    · rw [List.getElem?_eq_none (by rw [List.length_range]; omega)]
      rfl
    · rfl

/-- **`inode_write`** overwrites a part of the file.  It fails only when it needs more
blocks than are free. -/
theorem wp_write_bytes {Q : ℕ × Inode → σ → Prop} {l : List UInt8} {addr : ℕ → UInt8} {op : ℕ}
    (hl : sb.Layout) (h : M.At s A) (hc : Consistent sb A) (hlo : Loaded sb A.view i inode)
    (hf : files sb A.view i = some l) (hoff : offset ≤ l.length)
    (hmax : offset + count ≤ inodeMaxBytes)
    (hE : ∀ e, sb.numDataBlocks + blocksFor l.length
      < A.used.card + blocksFor (max l.length (offset + count)) → E e)
    (hQ : ∀ e B t, M.At t B → Updates sb A (liveEntry sb A.view) i B e → Consistent sb B →
      Loaded sb B.view i { inode with entry := e } →
      e = { inode.entry with numBytes := e.numBytes, addrs := e.addrs, indirect := e.indirect } →
      files sb B.view = Function.update (files sb A.view) i
        (some (overwrite l offset ((List.range count).map addr))) →
      Q (count, { inode with entry := e }) t) :
    wp (inodeWrite sb M.cache (some op) inode addr offset count) Q E s := by
  obtain ⟨hfile, hlen⟩ := hlo.files
  obtain rfl : content (liveEntry sb A.view i) A.view = l := Option.some.inj (hfile.symm.trans hf)
  rw [length_content] at hoff hE
  have hi := hlo.inUse.2.1
  have hlive := liveEntry_of_inUse hlo.inUse
  refine wp_inodeWrite hl h hc.held hc.owns hlo.entry_live hlo.inodeNo hi hlo.valid hlive.symm
    (hc.maps i) hoff hmax hE fun e B t ht hw => ?_
  have htype : e.type ≠ inodeInvalid := by
    rw [hw.entry, hlive]
    exact hlo.inUse.2.2
  have hup := hw.toUpdates
  have hself := hup.disk i hi
  rw [if_pos rfl] at hself
  refine hQ e B t ht hup (hc.update hup hlo.inUse.1 hi fun h => absurd h htype)
    ⟨hlo.inodeNo, ?_, hlo.valid, hself.symm⟩ ?_ ?_
  · rw [hup.inUse_iff hlo.inUse.1 hi, if_pos rfl]
    exact htype
  · rw [hlo.entry_live]
    exact hw.entry
  · rw [hc.files_update hup hlo.inUse.1 hi, if_pos htype]
    congr 1
    rw [content, hw.numBytes, content, ← map_overwrite_range _ addr count hoff]
    congr 1
    refine List.map_congr_left fun p hp => ?_
    exact hw.content p (by rw [hw.numBytes]; exact List.mem_range.mp hp)

/-- The same for a list of bytes. -/
theorem wp_write_file {Q : ℕ × Inode → σ → Prop} {l src : List UInt8} {op : ℕ} (hl : sb.Layout)
    (h : M.At s A) (hc : Consistent sb A) (hlo : Loaded sb A.view i inode)
    (hf : files sb A.view i = some l) (hoff : offset ≤ l.length)
    (hmax : offset + src.length ≤ inodeMaxBytes)
    (hE : ∀ e, sb.numDataBlocks + blocksFor l.length
      < A.used.card + blocksFor (max l.length (offset + src.length)) → E e)
    (hQ : ∀ e B t, M.At t B → Updates sb A (liveEntry sb A.view) i B e → Consistent sb B →
      Loaded sb B.view i { inode with entry := e } →
      e = { inode.entry with numBytes := e.numBytes, addrs := e.addrs, indirect := e.indirect } →
      files sb B.view = Function.update (files sb A.view) i (some (overwrite l offset src)) →
      Q (src.length, { inode with entry := e }) t) :
    wp (inodeWrite sb M.cache (some op) inode (fun j => src.getD j 0) offset src.length) Q E s := by
  have hsrc : (List.range src.length).map (fun j => src.getD j 0) = src := by
    refine List.ext_getElem (by simp) fun j _ hj => ?_
    simp [List.getElem?_eq_getElem hj]
  refine wp_write_bytes hl h hc hlo hf hoff hmax hE fun e B t ht hup hcB hloB he hfiles => ?_
  rw [hsrc] at hfiles
  exact hQ e B t ht hup hcB hloB he hfiles

/-- A call of `inode_read` that returns has not wrapped around. -/
theorem args_of_read {cache : BlockCache (StateT σ (Except Fault))} {t : σ}
    {r : List UInt8 × ℕ} (hcount : count < usizeSize)
    (hrun : (inodeRead cache inode offset count).run s = .ok (r, t)) :
    offset ≤ inode.entry.numBytes.toNat ∧ offset + count < usizeSize := by
  have h32 := inode.entry.numBytes.toNat_lt
  set numBytes := inode.entry.numBytes.toNat with hnum
  have hcut : offset ≤ numBytes ∧ offset ≤ (offset + (if numBytes < (count + offset) % usizeSize
      then (numBytes + usizeSize - offset) % usizeSize else count)) % usizeSize := by
    by_contra hargs
    simp only [inodeRead, ← hnum] at hrun
    rw [if_neg fun h => hargs ⟨h.1, h.2.2⟩] at hrun
    cases hrun
  refine ⟨hcut.1, ?_⟩
  by_contra hge
  -- the sum is small, so `count` is not cut down, and the end is in front of the start
  have hwrap : (count + offset) % usizeSize < offset := by
    simp only [usizeSize] at hcount hge ⊢
    omega
  rw [if_neg (by omega), Nat.add_comm offset count] at hcut
  omega

/-- A call of `inode_write` that returns stays below the limit of a file. -/
theorem args_of_write {cache : BlockCache (StateT σ (Except Fault))} {t : σ} {r : ℕ × Inode}
    {addr : ℕ → UInt8} {ctx : Option ℕ} (hcount : count < usizeSize)
    (hrun : (inodeWrite sb cache ctx inode addr offset count).run s = .ok (r, t)) :
    offset ≤ inode.entry.numBytes.toNat ∧ offset + count ≤ inodeMaxBytes := by
  simp only [inodeWrite] at hrun
  split at hrun
  · rename_i hargs
    obtain ⟨hnum, hmax, hend⟩ := hargs
    refine ⟨hnum, ?_⟩
    have h32 := inode.entry.numBytes.toNat_lt
    have hlt : offset + count < usizeSize := by
      simp only [usizeSize] at hcount hend ⊢
      omega
    rwa [Nat.mod_eq_of_lt hlt] at hmax
  · cases hrun

/-- **`inode_clear`** makes the file empty. -/
theorem wp_clear_file {Q : Inode → σ → Prop} (hl : sb.Layout) (h : M.At s A)
    (hc : Consistent sb A) (hlo : Loaded sb A.view i inode)
    (hQ : ∀ e B t, M.At t B → Updates sb A (liveEntry sb A.view) i B e → Consistent sb B →
      Loaded sb B.view i { inode with valid := true, entry := e } →
      files sb B.view = Function.update (files sb A.view) i (some []) →
      Q { inode with valid := true, entry := e } t) :
    wp (inodeClear sb M.cache ctx inode) Q E s := by
  have hi := hlo.inUse.2.1
  refine wp_inodeClear hl h hc.held hc.owns hlo.entry_live hlo.inodeNo hi
    fun e B t ht hup hentry => ?_
  have htype : e.type ≠ inodeInvalid := by
    rw [hentry, liveEntry_of_inUse hlo.inUse]
    exact hlo.inUse.2.2
  have hself := hup.disk i hi
  rw [if_pos rfl] at hself
  refine hQ e B t ht hup (hc.update hup hlo.inUse.1 hi fun h => absurd h htype)
    ⟨hlo.inodeNo, ?_, rfl, hself.symm⟩ ?_
  · rw [hup.inUse_iff hlo.inUse.1 hi, if_pos rfl]
    exact htype
  · rw [hc.files_update hup hlo.inUse.1 hi, if_pos htype, content, hentry]
    rfl

/-- **`inode_put`** drops a reference, or frees the inode with the last one. -/
theorem wp_put_file {Q : Option Inode → σ → Prop} (hl : sb.Layout) (h : M.At s A)
    (hc : Consistent sb A) (hlo : Loaded sb A.view i inode)
    (hkeep : ¬ (inode.entry.numLinks = 0 ∧ inode.rc = 1) →
      Q (some { inode with rc := inode.rc - 1 }) s)
    (hfree : inode.entry.numLinks = 0 → inode.rc = 1 → ∀ e B t, M.At t B →
      Updates sb A (liveEntry sb A.view) i B e → e.type = inodeInvalid → Consistent sb B →
      files sb B.view = Function.update (files sb A.view) i none → Q none t) :
    wp (inodePut sb M.cache ctx inode) Q E s := by
  have hi := hlo.inUse.2.1
  have hentry := hlo.entry_live
  refine wp_inodePut hl h hc.held hc.owns hentry hlo.inodeNo hi (hentry ▸ hkeep)
    fun hlinks hrc e B t ht hup htype hbytes => ?_
  refine hfree (hentry ▸ hlinks) hrc e B t ht hup htype (hc.update hup hlo.inUse.1 hi fun _ => hbytes) ?_
  rw [hc.files_update hup hlo.inUse.1 hi, if_neg (by simpa using htype)]

end MapCache

end OsLab
