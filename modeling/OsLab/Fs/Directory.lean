/-
Directories: `inode_lookup`, `inode_insert` and `inode_remove` of `fs/inode.c`.

A directory is a file of entries of 16 bytes.  `Dir` is what it stands for: a finite
map from names to an inode number and the index of the entry.  `DirCall.Spec` says what
the three functions do to this map.

* `Binds` — the entries of a directory stand for a map: every name is in one entry at
  most;
* `directory_conforms` — over a block cache that behaves as a map, from an empty
  directory on, every sequence of calls does what `Spec` says.
-/
import OsLab.Common.CString
import OsLab.Fs.Bitmap
import OsLab.Lib.Records
import OsLab.Lib.Search

namespace OsLab

/-- `INODE_DIRECTORY` -/
abbrev inodeDirectory : UInt16 := 1

/-- `FILE_NAME_MAX_LENGTH` -/
abbrev fileNameMaxLength : ℕ := 14

/-- `sizeof(DirEntry)` -/
abbrev sizeofDirEntry : ℕ := 16

/-- `DirEntry` -/
structure DirEntry where
  inodeNo : UInt16
  name : Fin fileNameMaxLength → UInt8

namespace DirEntry

/-- `name` as a pointer; the bytes past the array are never read by the code. -/
def namePtr (e : DirEntry) (k : ℕ) : UInt8 :=
  if h : k < fileNameMaxLength then e.name ⟨k, h⟩ else 0

/-- The entry in memory. -/
def toBytes (e : DirEntry) : List UInt8 :=
  leByte e.inodeNo.toNat 0 :: leByte e.inodeNo.toNat 1 :: List.ofFn e.name

/-- The entry that the bytes are. -/
def ofBytes (l : List UInt8) : DirEntry where
  inodeNo := .ofNat (leValue (fun j => l.getD j 0) 2)
  name k := l.getD (2 + k) 0

/-- `memset(&entry, 0, sizeof(DirEntry))` -/
def zero : DirEntry := ⟨0, fun _ => 0⟩

/-- The name of an entry: the bytes up to NUL. -/
def key (e : DirEntry) : List UInt8 := cstr e.namePtr fileNameMaxLength

@[simp] theorem length_toBytes (e : DirEntry) : e.toBytes.length = sizeofDirEntry := by
  simp [toBytes]

/-- **Round trip of a directory entry.** -/
theorem ofBytes_toBytes (e : DirEntry) : ofBytes e.toBytes = e := by
  have hno : leValue (fun j => e.toBytes.getD j 0) 2 = e.inodeNo.toNat := by
    have hlt : e.inodeNo.toNat < 256 ^ 2 := e.inodeNo.toNat_lt
    rw [leValue_congr (g := leByte e.inodeNo.toNat), leValue_leByte, Nat.mod_eq_of_lt hlt]
    intro j hj
    match j, hj with
    | 0, _ => rfl
    | 1, _ => rfl
  have hname : ∀ k : Fin fileNameMaxLength, e.toBytes.getD (2 + k) 0 = e.name k := fun k => by
    rw [toBytes, Nat.add_comm, List.getD_cons_succ, List.getD_cons_succ, List.getD_eq_getElem?_getD,
      List.getElem?_ofFn, dif_pos k.isLt, Option.getD_some]
  simp only [ofBytes, hno, hname, UInt16.ofNat_toNat]

/-- The entry that `inode_insert` writes has the name that it was given. -/
theorem key_strncpy (no : UInt16) (name : ℕ → UInt8) :
    key ⟨no, fun k => (strncpy name fileNameMaxLength).getD k 0⟩ = cstr name fileNameMaxLength := by
  rw [← upToNul_strncpy, key, cstr]
  congr 1
  refine List.ext_getElem (by simp [length_strncpy]) fun k hk _ => ?_
  have hlt : k < fileNameMaxLength := by simpa using hk
  rw [List.getElem_map, List.getElem_range, namePtr, dif_pos hlt]
  show (strncpy name fileNameMaxLength).getD k 0 = _
  rw [List.getD_eq_getElem?_getD, List.getElem?_eq_getElem, Option.getD_some]

end DirEntry

/-! ### The functions -/

section Functions

variable {m : Type → Type} [Monad m] [MonadExceptOf Fault m] (sb : SuperBlock)
  (cache : BlockCache m)

/-- The loop of `inode_lookup` over the `n` entries from `i` on. -/
def lookupFrom (inode : Inode) (name : ℕ → UInt8) : ℕ → ℕ → m (ℕ × Option ℕ)
  | 0, _ => return (0, none)
  | n + 1, i => do
    let r ← inodeRead cache inode (i * sizeofDirEntry) sizeofDirEntry
    let dentry := DirEntry.ofBytes r.1
    if strncmp dentry.namePtr name fileNameMaxLength = 0 then
      return (dentry.inodeNo.toNat, some i)
    else lookupFrom inode name n (i + 1)

/-- `inode_lookup`: the result, and what is stored in `*index`. -/
def inodeLookup (inode : Inode) (name : ℕ → UInt8) : m (ℕ × Option ℕ) :=
  if inode.entry.type = inodeDirectory then
    lookupFrom cache inode name (inode.entry.numBytes.toNat / sizeofDirEntry) 0
  else throw .panic

/-- `inode_insert`: the result, and the inode.  The result is an offset in bytes. -/
def inodeInsert (ctx : Option ℕ) (inode : Inode) (name : ℕ → UInt8) (inodeNo : ℕ) :
    m (ℕ × Inode) :=
  if inode.entry.type = inodeDirectory then do
    let r ← inodeLookup cache inode name
    if r.1 ≠ 0 then return (usizeSize - 1, inode)
    else
      let bytes := strncpy name fileNameMaxLength
      let dentry : DirEntry := ⟨.ofNat inodeNo, fun k => bytes.getD k 0⟩
      let offset := inode.entry.numBytes.toNat
      let w ← inodeWrite sb cache ctx inode (fun j => dentry.toBytes.getD j 0) offset
        sizeofDirEntry
      return (offset, w.2)
  else throw .panic

/-- `inode_remove`; it does not check the type. -/
def inodeRemove (ctx : Option ℕ) (inode : Inode) (index : ℕ) : m Inode := do
  let offset := index * sizeofDirEntry % usizeSize
  let _ ← inodeRead cache inode offset sizeofDirEntry
  let w ← inodeWrite sb cache ctx inode (fun j => DirEntry.zero.toBytes.getD j 0) offset
    sizeofDirEntry
  return w.2

end Functions

/-! ### The map of a directory -/

/-- A directory as a map from names to an inode number and the index of the entry. -/
abbrev Dir : Type := List UInt8 → Option (ℕ × ℕ)

/-- The entries stand for the map: the entries with a name are its bindings, and a name
that is not empty has an inode. -/
structure Binds (es : List DirEntry) (d : Dir) : Prop where
  iff : ∀ k no index, d k = some (no, index) ↔
    k ≠ [] ∧ ∃ e, es[index]? = some e ∧ e.key = k ∧ e.inodeNo.toNat = no
  pos : ∀ e ∈ es, e.key ≠ [] → e.inodeNo ≠ 0

/-- Entry `i` has the name `k`. -/
def hasKey (es : List DirEntry) (k : List UInt8) (i : ℕ) : Bool :=
  decide (es[i]?.map DirEntry.key = some k)

/-- What `inode_lookup` returns when it has found the entry. -/
def found (es : List DirEntry) : Option ℕ → ℕ × Option ℕ
  | some i => ((es[i]?.map fun e => e.inodeNo.toNat).getD 0, some i)
  | none => (0, none)

/-- What `inode_lookup` returns. -/
def scan (es : List DirEntry) (k : List UInt8) : ℕ × Option ℕ :=
  found es (firstIndex (hasKey es k) es.length)

/-- The index that `inode_lookup` stores is that of an entry. -/
theorem scan_lt {es : List DirEntry} {k : List UInt8} :
    ∀ index ∈ (scan es k).2, index < es.length := by
  rw [scan]
  cases h : firstIndex (hasKey es k) es.length with
  | none => simp [found]
  | some j => simpa [found] using (firstIndex_eq_some h).1

namespace Binds

variable {es : List DirEntry} {d : Dir} {e : DirEntry} {k : List UInt8} {no index : ℕ}

theorem nil : Binds [] fun _ => none :=
  ⟨fun k no index => by simp, fun e he => by simp at he⟩

/-- A name is in one entry at most. -/
theorem index_eq {i j : ℕ} {e' : DirEntry} (h : Binds es d) (he : es[i]? = some e)
    (he' : es[j]? = some e') (hk : e.key ≠ []) (heq : e'.key = e.key) : i = j := by
  have hi := (h.iff e.key _ i).mpr ⟨hk, e, he, rfl, rfl⟩
  have hj := (h.iff e.key _ j).mpr ⟨hk, e', he', heq, rfl⟩
  rw [hi] at hj
  exact (Prod.mk.inj (Option.some.inj hj)).2

theorem scan_some (h : Binds es d) (hd : d k = some (no, index)) : scan es k = (no, some index) := by
  obtain ⟨hk, e, he, hkey, rfl⟩ := (h.iff k no index).mp hd
  have hlt : index < es.length := (List.getElem?_eq_some_iff.mp he).1
  have hfirst : firstIndex (hasKey es k) es.length = some index := by
    refine firstIndex_eq hlt (by simp [hasKey, he, hkey]) fun j hj => ?_
    rw [hasKey, decide_eq_false_iff_not, Option.map_eq_some_iff]
    rintro ⟨e', he', hkey'⟩
    have := h.index_eq he he' (hkey ▸ hk) (hkey'.trans hkey.symm)
    omega
  rw [scan, hfirst, found, he]
  rfl

theorem scan_none (h : Binds es d) (hk : k ≠ []) (hd : d k = none) : scan es k = (0, none) := by
  cases hfirst : firstIndex (hasKey es k) es.length with
  | none => rw [scan, hfirst, found]
  | some i =>
    obtain ⟨-, htest, -⟩ := firstIndex_eq_some hfirst
    obtain ⟨e, he, hkey⟩ := Option.map_eq_some_iff.mp (of_decide_eq_true htest)
    rw [(h.iff k _ i).mpr ⟨hk, e, he, hkey, rfl⟩] at hd
    cases hd

theorem index_lt (h : Binds es d) {p : ℕ × ℕ} (hd : d k = some p) : p.2 < es.length := by
  obtain ⟨-, e, he, -⟩ := (h.iff k p.1 p.2).mp hd
  exact (List.getElem?_eq_some_iff.mp he).1

theorem pos_of_eq_some (h : Binds es d) (hd : d k = some (no, index)) : no ≠ 0 := by
  obtain ⟨hk, e, he, rfl, rfl⟩ := (h.iff k no index).mp hd
  exact fun h0 => h.pos e (List.mem_of_getElem? he) hk (UInt16.toNat_inj.mp h0)

/-- Adding an entry at the end. -/
theorem append (h : Binds es d) (hk : e.key ≠ []) (hd : d e.key = none) (he : e.inodeNo ≠ 0) :
    Binds (es ++ [e]) (Function.update d e.key (some (e.inodeNo.toNat, es.length))) := by
  refine ⟨fun k no index => ?_, fun e' he' => ?_⟩
  · by_cases hke : k = e.key
    · -- the new name
      subst hke
      rw [Function.update_self]
      constructor
      · intro heq
        obtain ⟨rfl, rfl⟩ := Prod.mk.inj (Option.some.inj heq)
        exact ⟨hk, e, List.getElem?_concat_length, rfl, rfl⟩
      · rintro ⟨-, e', he', hkey, rfl⟩
        rcases Nat.lt_trichotomy index es.length with hlt | rfl | hgt
        · rw [List.getElem?_append_left hlt] at he'
          rw [(h.iff _ _ index).mpr ⟨hk, e', he', hkey, rfl⟩] at hd
          cases hd
        · rw [List.getElem?_concat_length] at he'
          rw [Option.some.inj he']
        · rw [List.getElem?_eq_none (by rw [List.length_append, List.length_singleton]; omega)] at he'
          cases he'
    · rw [Function.update_of_ne hke, h.iff]
      refine and_congr_right fun _ => exists_congr fun e' => ?_
      rcases Nat.lt_trichotomy index es.length with hlt | rfl | hgt
      · rw [List.getElem?_append_left hlt]
      · rw [List.getElem?_concat_length, List.getElem?_eq_none (Nat.le_refl _)]
        refine iff_of_false (fun h => absurd h.1 (by simp)) fun h => ?_
        exact hke (Option.some.inj h.1 ▸ h.2.1.symm)
      · rw [List.getElem?_eq_none (Nat.le_of_lt hgt),
          List.getElem?_eq_none (by rw [List.length_append, List.length_singleton]; omega)]
  · rcases List.mem_append.mp he' with hmem | hmem
    · exact h.pos e' hmem
    · rw [List.mem_singleton.mp hmem]
      exact fun _ => he

@[simp] theorem key_zero : DirEntry.zero.key = [] := rfl

/-- Clearing an entry. -/
theorem clear (h : Binds es d) (hi : index < es.length) :
    Binds (es.set index .zero) fun k => (d k).filter fun p => p.2 ≠ index := by
  refine ⟨fun k no j => ?_, fun e he => ?_⟩
  · rw [Option.filter_eq_some_iff, h.iff]
    by_cases hj : j = index
    · subst hj
      rw [List.getElem?_set_self hi]
      refine iff_of_false (by simp) ?_
      rintro ⟨hk, e, he, rfl, -⟩
      exact hk (Option.some.inj he ▸ key_zero)
    · rw [List.getElem?_set_ne (Ne.symm hj)]
      simp [hj]
  · rcases List.mem_or_eq_of_mem_set he with hmem | rfl
    · exact h.pos e hmem
    · exact fun hk => absurd key_zero hk

end Binds

/-! ### The functions on a file system -/

namespace MapCache

variable {sb : SuperBlock} {σ : Type} {M : MapCache sb σ} {s : σ} {A : MapState}
  {E : Fault → Prop} {ctx : Option ℕ} {i index : ℕ} {inode : Inode} {es : List DirEntry}
  {e : DirEntry} {name : ℕ → UInt8}

/-- The content of a directory. -/
def dirBytes (es : List DirEntry) : List UInt8 := es.flatMap DirEntry.toBytes

theorem length_dirBytes (es : List DirEntry) : (dirBytes es).length = es.length * sizeofDirEntry :=
  length_flatMap_of_length DirEntry.length_toBytes es

theorem overwrite_dirBytes (es : List DirEntry) (e : DirEntry) :
    overwrite (dirBytes es) (es.length * sizeofDirEntry) e.toBytes = dirBytes (es ++ [e]) := by
  rw [← length_dirBytes, overwrite_length, dirBytes, dirBytes, List.flatMap_append,
    List.flatMap_singleton]

/-- An index of an entry is far below the range of `usize`. -/
theorem index_lt (hlo : Loaded sb A.view i inode) (hf : files sb A.view i = some (dirBytes es)) :
    inode.entry.numBytes.toNat = es.length * sizeofDirEntry ∧
      es.length * sizeofDirEntry + sizeofDirEntry < usizeSize := by
  obtain ⟨hfile, hlen⟩ := hlo.files
  rw [Option.some.inj (hfile.symm.trans hf), length_dirBytes] at hlen
  have h32 : inode.entry.numBytes.toNat < 2 ^ 32 := inode.entry.numBytes.toNat_lt
  refine ⟨hlen.symm, ?_⟩
  show es.length * 16 + 16 < 2 ^ 64
  have h16 : es.length * 16 = inode.entry.numBytes.toNat := hlen
  omega

/-- Reading entry `index`. -/
theorem wp_readEntry {Q : List UInt8 × ℕ → σ → Prop} (h : M.At s A) (hc : Consistent sb A)
    (hlo : Loaded sb A.view i inode) (hf : files sb A.view i = some (dirBytes es))
    (he : es[index]? = some e) (hQ : ∀ t, M.At t A → Q (e.toBytes, sizeofDirEntry) t) :
    wp (inodeRead M.cache inode (index * sizeofDirEntry) sizeofDirEntry) Q E s := by
  have hlt : index < es.length := (List.getElem?_eq_some_iff.mp he).1
  have hmul : index * sizeofDirEntry + sizeofDirEntry ≤ es.length * sizeofDirEntry := by
    rw [← Nat.succ_mul]
    exact Nat.mul_le_mul_right _ hlt
  obtain ⟨-, husize⟩ := index_lt hlo hf
  refine wp_mono (wp_read_file h hc hlo hf (by rw [length_dirBytes]; omega) (by omega))
    (fun r t ht => ?_) fun _ he => he
  obtain ⟨ht, hr1, hr2⟩ := ht
  rw [dirBytes, take_drop_flatMap DirEntry.length_toBytes he] at hr1
  rw [hr1, DirEntry.length_toBytes] at hr2
  obtain ⟨r1, r2⟩ := r
  obtain rfl : r1 = e.toBytes := hr1
  obtain rfl : r2 = sizeofDirEntry := hr2
  exact hQ t ht

/-- **`inode_lookup`** finds the first entry with the name. -/
theorem wp_inodeLookup {Q : ℕ × Option ℕ → σ → Prop} (h : M.At s A) (hc : Consistent sb A)
    (hlo : Loaded sb A.view i inode) (hf : files sb A.view i = some (dirBytes es))
    (htype : inode.entry.type = inodeDirectory)
    (hQ : ∀ t, M.At t A → Q (scan es (cstr name fileNameMaxLength)) t) :
    wp (inodeLookup M.cache inode name) Q E s := by
  set k := cstr name fileNameMaxLength with hk
  have hloop : ∀ n j s, j + n = es.length → M.At s A →
      wp (lookupFrom M.cache inode name n j)
        (fun r t => M.At t A ∧ r = found es (firstFrom (hasKey es k) n j)) E s := by
    intro n
    induction n with
    | zero =>
      intro j s _ h
      exact ⟨h, rfl⟩
    | succ n ih =>
      intro j s hj h
      have he : es[j]? = some es[j] := List.getElem?_eq_getElem (by omega)
      rw [lookupFrom, wp_bind]
      refine wp_readEntry h hc hlo hf he fun t ht => ?_
      have htest : strncmp es[j].namePtr name fileNameMaxLength = 0 ↔ hasKey es k j = true := by
        rw [strncmp_eq_zero, hasKey, decide_eq_true_eq, he, Option.map_some, Option.some.injEq]
        rfl
      simp only [DirEntry.ofBytes_toBytes, htest]
      rw [firstFrom]
      split
      · rw [wp_pure, found, he]
        exact ⟨ht, rfl⟩
      · exact ih (j + 1) t (by omega) ht
  obtain ⟨hlen, -⟩ := index_lt hlo hf
  have hdiv : inode.entry.numBytes.toNat / sizeofDirEntry = es.length := by
    rw [hlen, Nat.mul_div_cancel _ (by decide)]
  rw [inodeLookup, if_pos htype, hdiv]
  refine wp_mono (hloop es.length 0 s (Nat.zero_add _) h) (fun r t ht => ?_) fun _ he => he
  obtain ⟨ht, rfl⟩ := ht
  exact hQ t ht

/-- Writing entry `index`, which may be one past the last. -/
theorem wp_writeEntry {Q : ℕ × Inode → σ → Prop} {op : ℕ} {es' : List DirEntry} (hl : sb.Layout)
    (h : M.At s A) (hc : Consistent sb A) (hlo : Loaded sb A.view i inode)
    (hf : files sb A.view i = some (dirBytes es)) (hi : index ≤ es.length)
    (hes : overwrite (dirBytes es) (index * sizeofDirEntry) e.toBytes = dirBytes es')
    (hmax : index * sizeofDirEntry + sizeofDirEntry ≤ inodeMaxBytes)
    (hE : ∀ f, sb.numDataBlocks + blocksFor (es.length * sizeofDirEntry)
      < A.used.card + blocksFor (max (es.length * sizeofDirEntry)
          (index * sizeofDirEntry + sizeofDirEntry)) → E f)
    (hQ : ∀ f B t, M.At t B → Updates sb A (liveEntry sb A.view) i B f → Consistent sb B →
      Loaded sb B.view i { inode with entry := f } → f.type = inode.entry.type →
      files sb B.view = Function.update (files sb A.view) i (some (dirBytes es')) →
      Q (sizeofDirEntry, { inode with entry := f }) t) :
    wp (inodeWrite sb M.cache (some op) inode (fun j => e.toBytes.getD j 0)
      (index * sizeofDirEntry) sizeofDirEntry) Q E s := by
  have hlen := e.length_toBytes
  have hmul : index * sizeofDirEntry ≤ es.length * sizeofDirEntry := Nat.mul_le_mul_right _ hi
  have hwrite : wp (inodeWrite sb M.cache (some op) inode (fun j => e.toBytes.getD j 0)
      (index * sizeofDirEntry) e.toBytes.length) Q E s := by
    refine wp_write_file hl h hc hlo hf (by rwa [length_dirBytes]) (by rwa [hlen])
      (fun f hfull => hE f (by rwa [length_dirBytes, hlen] at hfull))
      fun f B t ht hup hc' hlo' hentry hf' => ?_
    rw [hes] at hf'
    rw [hlen]
    exact hQ f B t ht hup hc' hlo' (by rw [hentry]) hf'
  rwa [hlen] at hwrite

/-- **`inode_insert`** adds an entry at the end when the name is not there. -/
theorem wp_inodeInsert {Q : ℕ × Inode → σ → Prop} {op no : ℕ} (hl : sb.Layout) (h : M.At s A)
    (hc : Consistent sb A) (hlo : Loaded sb A.view i inode)
    (hf : files sb A.view i = some (dirBytes es)) (htype : inode.entry.type = inodeDirectory)
    (hpresent : (scan es (cstr name fileNameMaxLength)).1 ≠ 0 →
      ∀ t, M.At t A → Q (usizeSize - 1, inode) t)
    (hmax : (scan es (cstr name fileNameMaxLength)).1 = 0 →
      es.length * sizeofDirEntry + sizeofDirEntry ≤ inodeMaxBytes)
    (hE : ∀ f, (scan es (cstr name fileNameMaxLength)).1 = 0 →
      sb.numDataBlocks + blocksFor (es.length * sizeofDirEntry)
        < A.used.card + blocksFor (es.length * sizeofDirEntry + sizeofDirEntry) → E f)
    (hQ : (scan es (cstr name fileNameMaxLength)).1 = 0 → ∀ d f B t, M.At t B →
      Updates sb A (liveEntry sb A.view) i B f → Consistent sb B →
      Loaded sb B.view i { inode with entry := f } → f.type = inode.entry.type →
      d.key = cstr name fileNameMaxLength → d.inodeNo = .ofNat no →
      files sb B.view = Function.update (files sb A.view) i (some (dirBytes (es ++ [d]))) →
      Q (es.length * sizeofDirEntry, { inode with entry := f }) t) :
    wp (inodeInsert sb M.cache (some op) inode name no) Q E s := by
  rw [inodeInsert, if_pos htype, wp_bind]
  refine wp_inodeLookup h hc hlo hf htype fun t ht => ?_
  split
  · rename_i hne
    exact hpresent hne t ht
  · rename_i heq
    have h0 := not_not.mp heq
    obtain ⟨hlen, -⟩ := index_lt hlo hf
    have hmax := hmax h0
    simp only [wp_bind, wp_pure, hlen]
    refine wp_writeEntry hl ht hc hlo hf (Nat.le_refl _) (overwrite_dirBytes es _) hmax
      (fun f hfull => ?_) fun f B t ht hup hc' hlo' hf' hfiles => ?_
    · rw [max_eq_right (Nat.le_add_right _ _)] at hfull
      exact hE f h0 hfull
    · exact hQ h0 _ f B t ht hup hc' hlo' hf' (DirEntry.key_strncpy _ name) rfl hfiles

/-- The blocks in use are data blocks. -/
theorem At.card_used_le (hl : sb.Layout) (h : M.At s A) : A.used.card ≤ sb.numDataBlocks := by
  rw [← hl.card_dataBlocks]
  exact Finset.card_le_card fun n hn => SuperBlock.mem_dataBlocks.mpr (h.inData hn)

/-- **`inode_remove`** clears the entry. -/
theorem wp_inodeRemove {Q : Inode → σ → Prop} {op : ℕ} (hl : sb.Layout) (h : M.At s A)
    (hc : Consistent sb A) (hlo : Loaded sb A.view i inode)
    (hf : files sb A.view i = some (dirBytes es)) (hi : index < es.length)
    (hQ : ∀ f B t, M.At t B → Updates sb A (liveEntry sb A.view) i B f → Consistent sb B →
      Loaded sb B.view i { inode with entry := f } → f.type = inode.entry.type →
      files sb B.view = Function.update (files sb A.view) i
        (some (dirBytes (es.set index .zero))) →
      Q { inode with entry := f } t) :
    wp (inodeRemove sb M.cache (some op) inode index) Q E s := by
  obtain ⟨hlen, husize⟩ := index_lt hlo hf
  have hmul : index * sizeofDirEntry + sizeofDirEntry ≤ es.length * sizeofDirEntry := by
    rw [← Nat.succ_mul]
    exact Nat.mul_le_mul_right _ hi
  have hmax : es.length * sizeofDirEntry ≤ inodeMaxBytes := by
    have hle := (hc.maps i).le
    rw [← hlo.entry_live, hlen] at hle
    simp only [fileBlocks, inodeMaxBytes, inodeMaxBlocks, blockSize] at *
    omega
  have he : es[index]? = some es[index] := List.getElem?_eq_getElem hi
  rw [inodeRemove, Nat.mod_eq_of_lt (by omega)]
  simp only [wp_bind, wp_pure]
  refine wp_readEntry h hc hlo hf he fun t ht => ?_
  refine wp_writeEntry hl ht hc hlo hf (Nat.le_of_lt hi)
    (overwrite_flatMap DirEntry.length_toBytes hi) (Nat.le_trans hmul hmax) (fun f hfull => ?_)
    fun f B t ht hup hc' hlo' hf' hfiles => ?_
  · rw [max_eq_left hmul] at hfull
    have := ht.card_used_le hl
    omega
  · exact hQ f B t ht hup hc' hlo' hf' hfiles

end MapCache

/-! ### Runs -/

/-- The calls on a directory; names are NUL-terminated or longer than a name can be. -/
inductive DirCall
  | lookup (name : List UInt8)
  | insert (op : ℕ) (name : List UInt8) (inodeNo : ℕ)
  | remove (op index : ℕ)
  deriving DecidableEq

/-- What a call returns. -/
inductive DirResult
  /-- the result, and what is stored in `*index` -/
  | found (inodeNo : ℕ) (index : Option ℕ)
  | inserted (r : ℕ)
  | removed
  deriving DecidableEq

/-- A string as a pointer. -/
def strPtr (l : List UInt8) (j : ℕ) : UInt8 := l.getD j 0

/-- The part of a string that counts as a name. -/
def fileName (name : List UInt8) : List UInt8 := cstr (strPtr name) fileNameMaxLength

/-- One call on the directory with inode `i`. -/
def dirCall {σ : Type} (sb : SuperBlock) (cache : BlockCache (StateT σ (Except Fault))) (i : ℕ) :
    DirCall → FsM σ DirResult
  | .lookup name => do
    let inode ← inodeOf i
    let r ← onStore (inodeLookup cache inode (strPtr name))
    return .found r.1 r.2
  | .insert op name inodeNo => do
    let inode ← inodeOf i
    let r ← onStore (inodeInsert sb cache (some op) inode (strPtr name) inodeNo)
    setInode i (some r.2)
    return .inserted r.1
  | .remove op index => do
    let inode ← inodeOf i
    let inode ← onStore (inodeRemove sb cache (some op) inode index)
    setInode i (some inode)
    return .removed

/-- The index that a lookup has stored. -/
def DirResult.indices : DirResult → List ℕ
  | .found _ index => index.toList
  | _ => []

namespace DirCall

/-- What the callers have to respect; `got` has the indices obtained so far. -/
def Allowed (got : List ℕ) : DirCall → Prop
  | .lookup _ => True
  | .insert _ name inodeNo => fileName name ≠ [] ∧ 0 < inodeNo ∧ inodeNo < 65536
  | .remove _ index => index ∈ got

/-- A directory of `size` bytes has room for a new entry, and there are free blocks for
it; `used` is the number of blocks in use. -/
def Fits (sb : SuperBlock) (used size : ℕ) (d : Dir) : DirCall → Prop
  | .insert _ name _ => d (fileName name) = none → size + sizeofDirEntry ≤ inodeMaxBytes ∧
      used + blocksFor (size + sizeofDirEntry) ≤ sb.numDataBlocks + blocksFor size
  | _ => True

/-- The calls that change nothing. -/
def Quiet (d : Dir) : DirCall → Prop
  | .lookup _ => True
  | .insert _ name _ => d (fileName name) ≠ none
  | .remove _ _ => False

/-- What a call returns, and what it does to the map. -/
def Spec (d : Dir) (r : DirResult) (d' : Dir) : DirCall → Prop
  | .lookup name => d' = d ∧ (fileName name ≠ [] →
      r = match d (fileName name) with
        | some (inodeNo, index) => .found inodeNo (some index)
        | none => .found 0 none)
  | .insert _ name inodeNo =>
      (d (fileName name) ≠ none → r = .inserted (usizeSize - 1) ∧ d' = d) ∧
      (d (fileName name) = none → ∃ index, (∀ k p, d k = some p → p.2 ≠ index) ∧
        r = .inserted (index * sizeofDirEntry) ∧
        d' = Function.update d (fileName name) (some (inodeNo, index)))
  | .remove _ index => d' = fun k => (d k).filter fun p => p.2 ≠ index

end DirCall

namespace MapCache

variable {sb : SuperBlock} {σ : Type} (M : MapCache sb σ)

/-- The size of a directory. -/
def dirSize (s : FsState σ) (i : ℕ) : ℕ :=
  match s.inodes i with
  | some inode => inode.entry.numBytes.toNat
  | none => 0

/-- The calls of the list, made in order from `s` on, do to the map `d` what `Spec` says,
as long as they are allowed and fit. -/
def DirConforms (i : ℕ) : List DirCall → FsState σ → Dir → List ℕ → Prop
  | [], _, _, _ => True
  | l :: ls, s, d, got => l.Allowed got →
      l.Fits sb (M.abs s.store).used.card (dirSize s i) d →
        ∃ r t d', (dirCall sb M.cache i l).run s = .ok (r, t) ∧ l.Spec d r d' ∧
          (l.Quiet d → M.abs t.store = M.abs s.store ∧ t.inodes = s.inodes) ∧
          DirConforms i ls t d' (r.indices ++ got)

/-- Inode `i` of the file system is an empty directory. -/
structure EmptyDir (s : FsState σ) (i : ℕ) : Prop where
  inv : ∃ A, M.FsInv s A
  dir : ∃ inode, s.inodes i = some inode ∧ inode.entry.type = inodeDirectory ∧
    inode.entry.numBytes = 0

/-- What holds between the calls. -/
structure DirInv (s : FsState σ) (i : ℕ) (inode : Inode) (A : MapState) (es : List DirEntry)
    (d : Dir) : Prop where
  fs : M.FsInv s A
  loads : s.inodes i = some inode
  type : inode.entry.type = inodeDirectory
  files : files sb A.view i = some (dirBytes es)
  binds : Binds es d

variable {M} {s t : FsState σ} {A B : MapState} {i : ℕ} {inode : Inode} {es : List DirEntry}
  {d : Dir} {got : List ℕ}

theorem DirInv.loaded (h : M.DirInv s i inode A es d) : Loaded sb A.view i inode :=
  h.fs.loaded i inode h.loads

/-- The state after the entries have changed. -/
theorem DirInv.update {store : σ} {f : InodeEntry} {es' : List DirEntry} {d' : Dir}
    (h : M.DirInv s i inode A es d) (ht : M.At store B)
    (hup : Updates sb A (liveEntry sb A.view) i B f) (hc : Consistent sb B)
    (hlo : Loaded sb B.view i { inode with entry := f }) (htype : f.type = inode.entry.type)
    (hfiles : OsLab.files sb B.view
      = Function.update (OsLab.files sb A.view) i (some (dirBytes es')))
    (hb : Binds es' d') :
    M.DirInv ⟨store, Function.update s.inodes i (some { inode with entry := f })⟩ i
      { inode with entry := f } B es' d' := by
  have huse := h.loaded.inUse
  refine ⟨h.fs.update ht hup hc huse.1 huse.2.1 fun x hx => ?_, Function.update_self _ _ _,
    htype.trans h.type, ?_, hb⟩
  · obtain rfl := Option.some.inj hx
    exact hlo
  · rw [hfiles, Function.update_self]

/-- The postcondition of a call. -/
def DirDone (M : MapCache sb σ) (i : ℕ) (s : FsState σ) (es : List DirEntry) (d : Dir)
    (l : DirCall) (r : DirResult) (t : FsState σ) : Prop :=
  ∃ inode B es' d', M.DirInv t i inode B es' d' ∧ es.length ≤ es'.length ∧
    (∀ index ∈ r.indices, index < es'.length) ∧ l.Spec d r d' ∧
    (l.Quiet d → M.abs t.store = M.abs s.store ∧ t.inodes = s.inodes)

private theorem scan_fileName {name : List UInt8} (h : Binds es d) (hk : fileName name ≠ []) :
    (d (fileName name) = none → scan es (fileName name) = (0, none)) ∧
    (d (fileName name) ≠ none → (scan es (fileName name)).1 ≠ 0) := by
  refine ⟨h.scan_none hk, fun hne => ?_⟩
  obtain ⟨⟨no, index⟩, hd⟩ := Option.ne_none_iff_exists'.mp hne
  rw [h.scan_some hd]
  exact h.pos_of_eq_some hd

private theorem wp_dirCall_lookup {name : List UInt8} (h : M.DirInv s i inode A es d) :
    wp (dirCall sb M.cache i (.lookup name)) (M.DirDone i s es d (.lookup name)) (fun _ => False)
      s := by
  simp only [dirCall, wp_bind, wp_onStore, wp_pure]
  refine wp_inodeOf (fun hnone => ?_) fun x hx => ?_
  · rw [h.loads] at hnone
    cases hnone
  obtain rfl := Option.some.inj (h.loads.symm.trans hx)
  refine wp_inodeLookup h.fs.store h.fs.consistent h.loaded h.files h.type fun t ht => ?_
  refine ⟨inode, A, es, d, ⟨⟨ht, h.fs.consistent, h.fs.loaded⟩, h.loads, h.type, h.files, h.binds⟩,
    Nat.le_refl _, ?_, ⟨rfl, fun hk => ?_⟩, fun _ => ⟨ht.2.trans h.fs.abs_eq.symm, rfl⟩⟩
  · exact fun index hmem => scan_lt index (Option.mem_toList.mp hmem)
  · show DirResult.found (scan es (fileName name)).1 (scan es (fileName name)).2 = _
    cases hd : d (fileName name) with
    | none => rw [h.binds.scan_none hk hd]
    | some p => rw [h.binds.scan_some hd]

private theorem wp_dirCall_insert {name : List UInt8} {op no : ℕ} (hl : sb.Layout)
    (h : M.DirInv s i inode A es d) (hallow : (DirCall.insert op name no).Allowed got)
    (hfits : (DirCall.insert op name no).Fits sb A.used.card (dirSize s i) d) :
    wp (dirCall sb M.cache i (.insert op name no)) (M.DirDone i s es d (.insert op name no))
      (fun _ => False) s := by
  obtain ⟨hk, hpos, hlt⟩ := hallow
  obtain ⟨hnone, hsome⟩ := scan_fileName h.binds hk
  obtain ⟨hlen, -⟩ := index_lt h.loaded h.files
  have hsize : dirSize s i = es.length * sizeofDirEntry := by
    rw [dirSize, h.loads]
    exact hlen
  have habsent : (scan es (fileName name)).1 = 0 → d (fileName name) = none := fun h0 => by
    by_contra hne
    exact hsome hne h0
  simp only [dirCall, wp_bind, wp_onStore, wp_pure]
  refine wp_inodeOf (fun hnone => ?_) fun x hx => ?_
  · rw [h.loads] at hnone
    cases hnone
  obtain rfl := Option.some.inj (h.loads.symm.trans hx)
  refine wp_inodeInsert hl h.fs.store h.fs.consistent h.loaded h.files h.type
    (fun h0 t ht => ?_) (fun h0 => ?_) (fun _ h0 hfull => ?_)
    fun h0 e f B t ht hup hc hlo htype hkey hno hf => ?_
  · -- the name is there
    have hne : d (fileName name) ≠ none := fun hd => h0 (by rw [← fileName, hnone hd])
    have hsame : Function.update s.inodes i (some inode) = s.inodes := by
      rw [← h.loads, Function.update_eq_self]
    refine ⟨inode, A, es, d, ⟨⟨ht, h.fs.consistent, ?_⟩, Function.update_self _ _ _, h.type, h.files,
      h.binds⟩, Nat.le_refl _, by simp [DirResult.indices], ⟨fun _ => ⟨rfl, rfl⟩, fun hd => absurd hd hne⟩,
      fun _ => ⟨ht.2.trans h.fs.abs_eq.symm, hsame⟩⟩
    show ∀ j x, Function.update s.inodes i (some inode) j = some x → _
    rw [hsame]
    exact h.fs.loaded
  · exact hsize ▸ (hfits (habsent h0)).1
  · have := (hfits (habsent h0)).2
    rw [hsize] at this
    omega
  · -- the new entry
    have hd := habsent h0
    have hno' : e.inodeNo.toNat = no := by
      rw [hno, UInt16.toNat_ofNat']
      exact Nat.mod_eq_of_lt hlt
    have hkey' : e.key = fileName name := hkey
    have hb := h.binds.append (hkey' ▸ hk) (hkey' ▸ hd) fun h0 => by
      rw [h0] at hno'
      exact absurd hno'.symm (Nat.pos_iff_ne_zero.mp hpos)
    rw [hkey', hno'] at hb
    refine ⟨_, B, _, _, h.update ht hup hc hlo htype hf hb, by simp, by simp [DirResult.indices],
      ⟨fun hne => absurd hd hne, fun _ => ⟨es.length, fun k p hp => ?_, rfl, rfl⟩⟩,
      fun hq => absurd hd hq⟩
    exact Nat.ne_of_lt (h.binds.index_lt hp)

private theorem wp_dirCall_remove {op index : ℕ} (hl : sb.Layout) (h : M.DirInv s i inode A es d)
    (hi : index < es.length) :
    wp (dirCall sb M.cache i (.remove op index)) (M.DirDone i s es d (.remove op index))
      (fun _ => False) s := by
  simp only [dirCall, wp_bind, wp_onStore, wp_pure]
  refine wp_inodeOf (fun hnone => ?_) fun x hx => ?_
  · rw [h.loads] at hnone
    cases hnone
  obtain rfl := Option.some.inj (h.loads.symm.trans hx)
  refine wp_inodeRemove hl h.fs.store h.fs.consistent h.loaded h.files hi
    fun f B t ht hup hc hlo htype hf => ?_
  exact ⟨_, B, _, _, h.update ht hup hc hlo htype hf (h.binds.clear hi), by simp,
    by simp [DirResult.indices], rfl, False.elim⟩

/-- **One call** on a directory. -/
theorem wp_dirCall (hl : sb.Layout) (h : M.DirInv s i inode A es d)
    (hgot : ∀ index ∈ got, index < es.length) (l : DirCall) (hallow : l.Allowed got)
    (hfits : l.Fits sb A.used.card (dirSize s i) d) :
    wp (dirCall sb M.cache i l) (M.DirDone i s es d l) (fun _ => False) s := by
  cases l with
  | lookup name => exact wp_dirCall_lookup h
  | insert op name no => exact wp_dirCall_insert hl h hallow hfits
  | remove op index => exact wp_dirCall_remove hl h (hgot index hallow)

theorem dirConforms_of_inv (hl : sb.Layout) (ls : List DirCall) :
    ∀ {s inode A es d got}, M.DirInv s i inode A es d → (∀ index ∈ got, index < es.length) →
      M.DirConforms i ls s d got := by
  induction ls with
  | nil =>
    intro s inode A es d got _ _
    trivial
  | cons l ls ih =>
    intro s inode A es d got h hgot hallow hfits
    rw [h.fs.abs_eq] at hfits
    obtain ⟨r, t, hrun, inode', B, es', d', h', hle, hnew, hspec, hquiet⟩ :=
      exists_run_of_wp (wp_dirCall hl h hgot l hallow hfits)
    refine ⟨r, t, d', hrun, hspec, hquiet, ih h' fun index hmem => ?_⟩
    rcases List.mem_append.mp hmem with hr | hold
    · exact hnew index hr
    · exact Nat.lt_of_lt_of_le (hgot index hold) hle

theorem EmptyDir.inv_nil (h : M.EmptyDir s i) :
    ∃ inode A, M.DirInv s i inode A [] fun _ => none := by
  obtain ⟨⟨A, hA⟩, inode, hload, htype, hbytes⟩ := h
  obtain ⟨hfile, hlen⟩ := (hA.loaded i inode hload).files
  have h0 : content (liveEntry sb A.view i) A.view = [] := by
    rw [hbytes] at hlen
    exact List.eq_nil_of_length_eq_zero hlen
  exact ⟨inode, A, hA, hload, htype, by rw [hfile, h0]; rfl, Binds.nil⟩

end MapCache

/-- **A directory is a finite map from names.**  Over a block cache that behaves as a map
of blocks with a correct allocator, from an empty directory on, every call of a sequence
of calls that are allowed and fit returns, with the result and the effect on the map that
`DirCall.Spec` says, and changes nothing at all if it is a lookup or the insertion of a
name that is there. -/
theorem directory_conforms (sb : SuperBlock) (hl : sb.Layout) (σ : Type) (M : MapCache sb σ)
    (s : FsState σ) (i : ℕ) (h : M.EmptyDir s i) (ls : List DirCall) :
    M.DirConforms i ls s (fun _ => none) [] := by
  obtain ⟨inode, A, hinv⟩ := h.inv_nil
  exact MapCache.dirConforms_of_inv hl ls hinv (by simp)

/-- The calls of the list, and what they return. -/
def dirCalls (sb : SuperBlock) (i : ℕ) (ls : List DirCall) (s : FsState BlockStore) :
    Option (List DirResult) :=
  ((ls.mapM (dirCall sb (mapOps.withBitmap sb) i)).run' s).toOption

/-- A file system with one empty directory. -/
theorem directory_conforms_mkfs : ∃ s : FsState BlockStore,
    dirCalls .mkfs 1 [.insert 0 [97] 5, .lookup [97], .remove 0 0, .lookup [97]] s
      = some [.inserted 0, .found 5 (some 0), .removed, .found 0 none] ∧
    (bitmapCache .mkfs SuperBlock.layout_mkfs).DirConforms 1
      [.insert 0 [97] 5, .lookup [97], .remove 0 0, .lookup [97]] s (fun _ => none) [] := by
  have hrun : ((fsSystem .mkfs).exec (FsState.AllowedAt .mkfs) (.blank .mkfs)
      [.alloc none inodeDirectory, .get 1]).map (fun s =>
        (dirCalls .mkfs 1 [.insert 0 [97] 5, .lookup [97], .remove 0 0, .lookup [97]] s,
          (s.inodes 1).map fun inode => (inode.entry.type, inode.entry.numBytes)))
      = some (some [.inserted 0, .found 5 (some 0), .removed, .found 0 none],
          some (inodeDirectory, 0)) := by
    decide +kernel
  obtain ⟨s, hs, heq⟩ := Option.map_eq_some_iff.mp hrun
  obtain ⟨hcalls, hinode⟩ := Prod.mk.inj heq
  obtain ⟨inode, hload, htype⟩ := Option.map_eq_some_iff.mp hinode
  obtain ⟨htype, hbytes⟩ := Prod.mk.inj htype
  have hinv := FsState.inv_of_reachable SuperBlock.layout_mkfs
    ⟨_, FsState.init_blank, System.leads_of_exec hs⟩
  exact ⟨s, hcalls, directory_conforms .mkfs SuperBlock.layout_mkfs BlockStore _ s 1
    ⟨hinv, inode, hload, htype, hbytes⟩ _⟩

/-- The two ways in which a directory is less than a map: a new name does not fit on a
full disk, where `cache_alloc` panics, and the empty name is found in an entry that has
been removed, where `*index` is stored although the result is 0. -/
theorem directory_limits :
    (SuperBlock.tiny.Layout ∧ (fsSystem .tiny).init (.blank .tiny)) ∧
    ((fsSystem .tiny).exec (FsState.AllowedAt .tiny) (.blank .tiny)
      [.alloc none inodeDirectory, .alloc none 2, .get 1, .get 2, .write 0 2 [7] 0]).map
      (fun s => failure ((dirCall .tiny (mapOps.withBitmap .tiny) 1 (.insert 0 [97] 2)).run s))
      = some (some .panic) ∧
    ((fsSystem .mkfs).exec (FsState.AllowedAt .mkfs) (.blank .mkfs)
      [.alloc none inodeDirectory, .get 1]).map
      (dirCalls .mkfs 1 [.insert 0 [97] 5, .lookup [97], .lookup [], .remove 0 0, .lookup []])
      = some (some [.inserted 0, .found 5 (some 0), .found 0 none, .removed,
          .found 0 (some 0)]) :=
  ⟨⟨⟨by decide, by decide, by decide, by decide⟩,
    FsState.init_blank_of (by decide) (by decide)⟩,
    by decide +kernel, by decide +kernel⟩

end OsLab
