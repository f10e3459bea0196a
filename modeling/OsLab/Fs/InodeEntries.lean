/-
The functions of the inode layer that change the entry of an inode.

`Updates sb A ents i B e` says that the entry of inode `i` is now `e`, in memory and
on the disk, that `e` has a block for each of its file blocks and for no other, and
that the other inodes keep their blocks and bytes.

* `wp_inodeAlloc`, `wp_inodeWrite`, `wp_inodeClear`, `wp_inodePut` — each of the four
  functions is such an update.
-/
import OsLab.Fs.InodeFiles

namespace OsLab

/-- The entry of inode `i` on the disk. -/
def diskEntry (sb : SuperBlock) (v : ℕ → BlockData) (i : ℕ) : InodeEntry :=
  (v (toBlockNo sb i)).inodeEntry (i % inodePerBlock)

/-- The entry of a new inode. -/
abbrev InodeEntry.blank (type : UInt16) : InodeEntry := { InodeEntry.zero with type := type }

/-- The state after the entry of inode `i` on the disk has been set. -/
def MapState.setEntry (sb : SuperBlock) (A : MapState) (i : ℕ) (e : InodeEntry) : MapState :=
  let d := (A.view (toBlockNo sb i)).setInodeEntry (i % inodePerBlock) e
  { A with view := Function.update A.view (toBlockNo sb i) d }

/-- Inode `i` gets the entry `e`. -/
structure Updates (sb : SuperBlock) (A : MapState) (ents : ℕ → InodeEntry) (i : ℕ) (B : MapState)
    (e : InodeEntry) : Prop where
  owns : Owns (slots (Function.update ents i e) B.view) B.used
  maps : Maps e B.view (fileBlocks e.numBytes.toNat)
  held : B.held = A.held
  disk : ∀ j < sb.numInodes, diskEntry sb B.view j = if j = i then e else diskEntry sb A.view j
  others : ∀ j, j ≠ i → Undisturbed A.view B.view (ents j)

section Entries

variable {sb : SuperBlock} {A C : MapState} {i j n : ℕ} {e e' : InodeEntry} {v : ℕ → BlockData}
  {ents : ℕ → InodeEntry}

theorem view_setEntry : (A.setEntry sb i e).view = Function.update A.view (toBlockNo sb i)
    ((A.view (toBlockNo sb i)).setInodeEntry (i % inodePerBlock) e) := rfl

theorem diskEntry_setEntry :
    diskEntry sb (A.setEntry sb i e).view j = if j = i then e else diskEntry sb A.view j := by
  have hpos : 0 < inodePerBlock := by decide
  have hi := Nat.mod_lt i hpos
  have hj := Nat.mod_lt j hpos
  by_cases hblock : toBlockNo sb j = toBlockNo sb i
  · have hdiv : j / inodePerBlock = i / inodePerBlock := Nat.add_left_cancel hblock
    have hiff : j % inodePerBlock = i % inodePerBlock ↔ j = i := by
      constructor
      · intro hmod
        rw [← Nat.div_add_mod j inodePerBlock, hdiv, hmod, Nat.div_add_mod]
      · rintro rfl
        rfl
    rw [diskEntry, view_setEntry, hblock, Function.update_self,
      BlockData.inodeEntry_setInodeEntry _ hi hj, diskEntry, hblock]
    simp only [hiff]
  · have hne : j ≠ i := by
      rintro rfl
      exact hblock rfl
    rw [if_neg hne, diskEntry, view_setEntry, Function.update_of_ne hblock]
    rfl

/-- The data blocks do not change. -/
theorem view_setEntry_of_inData (hl : sb.Layout) (hi : i < sb.numInodes) (hn : sb.InData n) :
    (A.setEntry sb i e).view n = A.view n := by
  refine Function.update_of_ne ?_ _ _
  rintro rfl
  exact hl.not_inInodes hn (hl.inInodes_toBlockNo hi)

theorem slots_update_congr (h : ∀ k, blockOf e' v k = blockOf e v k) (x : ℕ × ℕ) :
    slots (Function.update ents i e') v x = slots (Function.update ents i e) v x := by
  rw [slots_update, slots_update, h]

theorem diskEntry_congr (hl : sb.Layout) (h : ∀ x, sb.InInodes x → C.view x = A.view x)
    (hj : j < sb.numInodes) : diskEntry sb C.view j = diskEntry sb A.view j := by
  rw [diskEntry, h _ (hl.inInodes_toBlockNo hj), diskEntry]

end Entries

namespace MapCache

variable {sb : SuperBlock} {σ : Type} {M : MapCache sb σ} {s : σ} {A B C : MapState}
  {E : Fault → Prop} {ctx : Option ℕ} {n i c offset count : ℕ} {inode : Inode} {e : InodeEntry}
  {ents : ℕ → InodeEntry}

/-- Storing an entry on the disk disturbs no inode. -/
private theorem undisturbed_setEntry (hl : sb.Layout) (hi : i < sb.numInodes) (h : M.At s C)
    (ho : Owns (slots ents C.view) C.used) (j : ℕ) :
    Undisturbed C.view (C.setEntry sb i e).view (ents j) :=
  undisturbed_of_view fun k hk =>
    view_setEntry_of_inData hl hi (h.inData (ho.mem_used (k := (j, k)) hk))

/-- Storing the entry on the disk completes an update. -/
theorem updates_setEntry (hl : sb.Layout) (hi : i < sb.numInodes) (h : M.At s C)
    (ho : Owns (slots (Function.update ents i e) C.view) C.used)
    (hm : Maps e C.view (fileBlocks e.numBytes.toNat)) (hheld : C.held = A.held)
    (hdisk : ∀ j < sb.numInodes, j ≠ i → diskEntry sb C.view j = diskEntry sb A.view j)
    (hothers : ∀ j, j ≠ i → Undisturbed A.view C.view (ents j)) :
    Updates sb A ents i (C.setEntry sb i e) e := by
  have hview : ∀ n ∈ C.used, (C.setEntry sb i e).view n = C.view n := fun n hn =>
    view_setEntry_of_inData hl hi (h.inData hn)
  have hslots := slots_congr ho hview
  refine { owns := ho.congr hslots, maps := Maps.congr hm fun k => ?_, held := hheld
           disk := fun j hj => ?_, others := fun j hj => ?_ }
  · have hslot := hslots (i, k)
    rwa [slots_update, slots_update, if_pos rfl, if_pos rfl] at hslot
  · rw [diskEntry_setEntry]
    by_cases hji : j = i
    · rw [if_pos hji, if_pos hji]
    · rw [if_neg hji, if_neg hji, hdisk j hj hji]
  · have hset := undisturbed_setEntry (e := e) hl hi h ho j
    rw [Function.update_of_ne hj] at hset
    exact (hothers j hj).trans hset

/-! ### `inode_lock` and `inode_sync` -/

/-- The inode block has been acquired, stored and released. -/
private theorem At.setEntry (hnot : toBlockNo sb i ∉ A.held)
    (h : M.At s { A with
      view := Function.update A.view (toBlockNo sb i)
        ((A.view (toBlockNo sb i)).setInodeEntry (i % inodePerBlock) e)
      held := (insert (toBlockNo sb i) A.held).erase (toBlockNo sb i) }) :
    M.At s (A.setEntry sb i e) := by
  rwa [Finset.erase_insert hnot] at h

/-- `inode_lock` loads the entry of an inode that has not been loaded. -/
theorem wp_inodeLock {Q : Inode → σ → Prop} (hl : sb.Layout) (h : M.At s A) (hheld : A.held = ∅)
    (hrc : inode.rc ≠ 0) (hi : inode.inodeNo < sb.numInodes)
    (hQ : ∀ t, M.At t A → Q { inode with
      valid := true
      entry := if inode.valid then inode.entry else diskEntry sb A.view inode.inodeNo } t) :
    wp (inodeLock sb M.cache inode) Q E s := by
  rw [inodeLock, if_neg hrc]
  by_cases hv : inode.valid = true
  · rw [if_pos hv, wp_pure]
    rw [if_pos hv, ← hv] at hQ
    exact hQ s h
  · have hnot : toBlockNo sb inode.inodeNo ∉ A.held := by simp [hheld]
    have hmem := Finset.mem_insert_self (toBlockNo sb inode.inodeNo) A.held
    rw [if_neg hv]
    simp only [wp_bind]
    refine wp_acquire h (.inl (hl.inInodes_toBlockNo hi)) hnot fun t ht => wp_data ht hmem ?_
    refine wp_release ht hmem fun t ht => ?_
    rw [MapState.acquire_release hnot] at ht
    rw [if_neg hv] at hQ
    exact hQ t ht

/-- `inode_sync` stores the entry. -/
theorem wp_inodeSync {Q : Inode → σ → Prop} (hl : sb.Layout) (h : M.At s A) (hheld : A.held = ∅)
    (hno : inode.inodeNo = i) (hi : i < sb.numInodes) (hvalid : inode.valid = true)
    (hQ : ∀ t, M.At t (A.setEntry sb i inode.entry) → Q inode t) :
    wp (inodeSync sb M.cache ctx inode true) Q E s := by
  subst hno
  have hnot : toBlockNo sb inode.inodeNo ∉ A.held := by simp [hheld]
  have hmem := Finset.mem_insert_self (toBlockNo sb inode.inodeNo) A.held
  simp only [inodeSync, hvalid, Bool.and_self, if_true, wp_bind]
  refine wp_acquire h (.inl (hl.inInodes_toBlockNo hi)) hnot fun t ht => wp_data ht hmem ?_
  refine wp_store ht hmem fun t ht => wp_sync ht hmem fun t ht => ?_
  rw [wp_pure]
  exact wp_release ht hmem fun t ht => hQ t (ht.setEntry hnot)

/-! ### `inode_alloc` -/

/-- The search of `inode_alloc`: the state is changed only when an entry that is not
in use has been found. -/
private theorem wp_inodeAllocFrom {Q : ℕ → σ → Prop} {type : UInt16} (hl : sb.Layout)
    (hheld : A.held = ∅) {is : List ℕ} (his : ∀ i ∈ is, i < sb.numInodes) (h : M.At s A)
    (hE : ∀ e, (∀ i ∈ is, (diskEntry sb A.view i).type ≠ inodeInvalid) → E e)
    (hQ : ∀ i ∈ is, (diskEntry sb A.view i).type = inodeInvalid →
      ∀ t, M.At t (A.setEntry sb i (InodeEntry.blank type)) → Q i t) :
    wp (inodeAllocFrom sb M.cache ctx type is) Q E s := by
  induction is generalizing s with
  | nil =>
    rw [inodeAllocFrom, wp_throw]
    exact hE _ fun i hi => absurd hi List.not_mem_nil
  | cons i is ih =>
    have hi := his i List.mem_cons_self
    have hnot : toBlockNo sb i ∉ A.held := by simp [hheld]
    have hmem := Finset.mem_insert_self (toBlockNo sb i) A.held
    simp only [inodeAllocFrom, wp_bind]
    refine wp_acquire h (.inl (hl.inInodes_toBlockNo hi)) hnot fun t ht => wp_data ht hmem ?_
    dsimp only
    by_cases htype : ((A.view (toBlockNo sb i)).inodeEntry (i % inodePerBlock)).type = inodeInvalid
    · rw [if_pos htype]
      simp only [wp_bind, wp_pure]
      refine wp_store ht hmem fun t ht => wp_sync ht hmem fun t ht => wp_release ht hmem fun t ht => ?_
      exact hQ i List.mem_cons_self htype t (ht.setEntry hnot)
    · rw [if_neg htype, wp_bind]
      refine wp_release ht hmem fun t ht => ?_
      rw [MapState.acquire_release hnot] at ht
      refine ih (fun j hj => his j (List.mem_cons_of_mem i hj)) ht (fun e hfull => hE e ?_)
        fun j hj => hQ j (List.mem_cons_of_mem i hj)
      intro j hj
      rcases List.mem_cons.mp hj with rfl | hj
      · exact htype
      · exact hfull j hj

/-- The entry of a new inode has no blocks. -/
theorem blockOf_blank (type : UInt16) (v : ℕ → BlockData) (k : ℕ) :
    blockOf (InodeEntry.blank type) v k = 0 := by
  have haddr : ∀ k, (InodeEntry.blank type).addr k = 0 := by
    intro k
    rw [InodeEntry.addr]
    split <;> rfl
  rw [blockOf, haddr]
  split
  · rfl
  · simp [InodeEntry.zero]

theorem maps_blank (type : UInt16) (v : ℕ → BlockData) :
    Maps (InodeEntry.blank type) v (fileBlocks (InodeEntry.blank type).numBytes.toNat) := by
  have hzero : fileBlocks (InodeEntry.blank type).numBytes.toNat = 0 := by
    show fileBlocks (0 : UInt32).toNat = 0
    decide
  rw [hzero]
  exact ⟨Nat.zero_le _, fun k _ => by rw [blockOf_blank]; simp, by simp [InodeEntry.zero]⟩

/-- **`inode_alloc`** takes an entry that is not in use, or panics when there is none. -/
theorem wp_inodeAlloc {Q : ℕ → σ → Prop} {type : UInt16} (hl : sb.Layout) (h : M.At s A)
    (hheld : A.held = ∅) (ho : Owns (slots ents A.view) A.used)
    (hents : ∀ i, 0 < i → i < sb.numInodes → (diskEntry sb A.view i).type = inodeInvalid →
      ents i = .zero)
    (hE : ∀ e, type = inodeInvalid ∨ (∀ i, 0 < i → i < sb.numInodes →
      (diskEntry sb A.view i).type ≠ inodeInvalid) → E e)
    (hQ : ∀ i, 0 < i → i < sb.numInodes → (diskEntry sb A.view i).type = inodeInvalid →
      ∀ B t, M.At t B → Updates sb A ents i B (InodeEntry.blank type) → Q i t) :
    wp (inodeAlloc sb M.cache ctx type) Q E s := by
  rw [inodeAlloc]
  by_cases htype : type = inodeInvalid
  · rw [if_pos htype, wp_throw]
    exact hE _ (.inl htype)
  have hrange : ∀ i, i ∈ List.range' 1 (sb.numInodes - 1) ↔ 0 < i ∧ i < sb.numInodes := by
    intro i
    rw [List.mem_range'_1]
    omega
  rw [if_neg htype]
  refine wp_inodeAllocFrom hl hheld (fun i hi => ((hrange i).mp hi).2) h
    (fun e hfull => hE e (.inr fun i hpos hi => hfull i ((hrange i).mpr ⟨hpos, hi⟩)))
    fun i hi hinv t ht => ?_
  obtain ⟨hpos, hi⟩ := (hrange i).mp hi
  refine hQ i hpos hi hinv _ t ht (updates_setEntry hl hi h (ho.congr fun x => ?_) (maps_blank _ _)
    rfl (fun _ _ _ => rfl) fun _ _ => .refl _ _)
  rw [slots_update]
  split
  · rename_i hx
    rw [blockOf_blank, slots, hx, hents i hpos hi hinv]
    exact (blockOf_blank 0 _ _).symm
  · rfl

/-! ### `inode_write` -/

theorem fileBlocks_mono {m n : ℕ} (h : m ≤ n) : fileBlocks m ≤ fileBlocks n := by
  simp only [fileBlocks, blockSize]
  omega

theorem slotCount_mono {c d : ℕ} (h : c ≤ d) : slotCount c ≤ slotCount d := by
  rw [slotCount, slotCount]
  split <;> split <;> omega

/-- What `inode_write` does. -/
structure Writes (sb : SuperBlock) (A : MapState) (ents : ℕ → InodeEntry) (i : ℕ)
    (src : ℕ → UInt8) (offset count : ℕ) (B : MapState) (e : InodeEntry) : Prop
    extends Updates sb A ents i B e where
  numBytes : e.numBytes.toNat = max (ents i).numBytes.toNat (offset + count)
  entry : e = { ents i with numBytes := e.numBytes, addrs := e.addrs, indirect := e.indirect }
  content : ∀ p < e.numBytes.toNat, byteAt e B.view p
    = if offset ≤ p ∧ p < offset + count then src (p - offset) else byteAt (ents i) A.view p

/-- The state before the loop. -/
theorem writing_zero {src : ℕ → UInt8} (ho : Owns (slots ents A.view) A.used)
    (hm : Maps (ents i) A.view (fileBlocks (ents i).numBytes.toNat))
    (hoff : offset ≤ (ents i).numBytes.toNat) :
    Writing sb A ents i src offset 0 A (ents i) := by
  have hmax : max (ents i).numBytes.toNat (offset + 0) = (ents i).numBytes.toNat := by omega
  refine { owns := by rw [Function.update_eq_self]; exact ho, maps := hmax.symm ▸ hm, held := rfl
           card := by rw [hmax], entry := rfl, same := .inr rfl, content := fun p _ => ?_
           inodes := fun _ _ => rfl, others := fun _ _ => .refl _ _ }
  rw [if_neg (by omega)]

/-- **`inode_write`** overwrites the bytes from `offset` on and lets the file grow.  It
fails only when fewer blocks are free than it needs. -/
theorem wp_inodeWrite {Q : ℕ × Inode → σ → Prop} {src : ℕ → UInt8} {op : ℕ} (hl : sb.Layout)
    (h : M.At s A) (hheld : A.held = ∅) (ho : Owns (slots ents A.view) A.used)
    (he : inode.entry = ents i) (hno : inode.inodeNo = i) (hi : i < sb.numInodes)
    (hvalid : inode.valid = true) (hdisk : diskEntry sb A.view i = ents i)
    (hm : Maps (ents i) A.view (fileBlocks (ents i).numBytes.toNat))
    (hoff : offset ≤ (ents i).numBytes.toNat) (hmax : offset + count ≤ inodeMaxBytes)
    (hE : ∀ e, sb.numDataBlocks + slotCount (fileBlocks (ents i).numBytes.toNat)
      < A.used.card + slotCount (fileBlocks (max (ents i).numBytes.toNat (offset + count))) → E e)
    (hQ : ∀ e B t, M.At t B → Writes sb A ents i src offset count B e →
      Q (count, { inode with entry := e }) t) :
    wp (inodeWrite sb M.cache (some op) inode src offset count) Q E s := by
  have h32 : inodeMaxBytes < 2 ^ 32 := by decide
  have hlast : (offset + count) % usizeSize = offset + count :=
    Nat.mod_eq_of_lt (by simp only [usizeSize]; omega)
  simp only [inodeWrite, he, hlast]
  rw [if_pos ⟨hoff, hmax, Nat.le_add_right _ _⟩]
  simp only [wp_bind]
  refine wp_mono (wp_forChunks (fun total x t => ∃ B e, M.At t B ∧
    Writing sb A ents i src offset total B e ∧ x = { inode with entry := e })
    ⟨A, ents i, h, writing_zero ho hm hoff, by rw [← he]⟩ ?_) ?_ fun _ he => he
  · rintro total htotal x t ⟨B, e, ht, hw, rfl⟩
    refine wp_writeChunk hl hheld ht hw rfl htotal hmax (fun err hfull => hE err ?_)
      fun e' u C hu hw' => ⟨C, e', hu, hw', rfl⟩
    have hle := chunk_le (offset + total) (count - total)
    have hmono := slotCount_mono (fileBlocks_mono
      (show max (ents i).numBytes.toNat (offset + (total + chunk (offset + total) (count - total)))
        ≤ max (ents i).numBytes.toNat (offset + count) by omega))
    omega
  · rintro x t ⟨B, e, ht, hw, rfl⟩
    have hbytes : e.numBytes = (ents i).numBytes := by rw [hw.entry]
    have hdiskB : ∀ j < sb.numInodes, diskEntry sb B.view j = diskEntry sb A.view j := fun j hj =>
      diskEntry_congr hl hw.inodes hj
    simp only [hbytes]
    by_cases hgrow : 0 < count ∧ (ents i).numBytes.toNat < offset + count
    · -- the file has grown: its size is stored
      have hnat : (UInt32.ofNat (offset + count)).toNat = offset + count := by
        rw [UInt32.toNat_ofNat']
        exact Nat.mod_eq_of_lt (by omega)
      have hsize : max (ents i).numBytes.toNat (offset + count) = offset + count := by omega
      set e' : InodeEntry := { e with numBytes := .ofNat (offset + count) } with he'
      have hblock : ∀ v k, blockOf e' v k = blockOf e v k := fun _ _ => rfl
      have hmaps := hw.maps
      rw [hsize] at hmaps
      rw [if_pos hgrow, wp_bind]
      refine wp_inodeSync hl ht (hw.held.trans hheld) hno hi hvalid fun u hu => ?_
      have hup := updates_setEntry (A := A) (e := e') hl hi ht
        (hw.owns.congr (slots_update_congr (hblock _)))
        (by rw [hnat]; exact ⟨hmaps.le, hmaps.block, hmaps.indirect⟩) hw.held
        (fun j hj _ => hdiskB j hj) hw.others
      refine hQ e' _ u hu { hup with
        numBytes := by rw [hnat, hsize], entry := ?_, content := fun p hp => ?_ }
      · rw [he', hw.entry]
      · rw [hnat] at hp
        have hlt := div_lt_fileBlocks hp
        have hne : blockOf e B.view (p / blockSize) ≠ 0 :=
          (hmaps.block _ (Nat.lt_of_lt_of_le hlt hmaps.le)).mpr hlt
        have hset := undisturbed_setEntry (e := e') hl hi ht hw.owns i
        rw [Function.update_self] at hset
        have hsame : byteAt e' (B.setEntry sb i e').view p = byteAt e B.view p := hset.byteAt hne
        rw [hsame, hw.content p (by omega)]
    · -- nothing is allocated, and the entry on the disk is still right
      have hsize : max (ents i).numBytes.toNat (offset + count) = (ents i).numBytes.toNat := by
        omega
      have hsame : e = ents i := hw.same.resolve_left (by omega)
      subst hsame
      have hmaps := hw.maps
      rw [hsize] at hmaps
      rw [if_neg hgrow, wp_pure]
      refine hQ (ents i) B t ht
        { owns := hw.owns, maps := hmaps, held := hw.held, others := hw.others
          disk := fun j hj => ?_, numBytes := hsize.symm, entry := rfl
          content := fun p hp => hw.content p (by omega) }
      rw [hdiskB j hj]
      split
      · rename_i hji
        rw [hji, hdisk]
      · rfl

/-! ### `inode_clear` -/

/-- A block of inode `i` is freed and its slot `k` becomes empty. -/
private theorem owns_clear {v : ℕ → BlockData} {k : ℕ} (ho : Owns (slots ents A.view) A.used)
    (hne : blockOf (ents i) A.view k ≠ 0) (hf : A.Frees sb (blockOf (ents i) A.view k) B)
    (hown : ∀ l, blockOf e v l = if l = k then 0 else blockOf (ents i) A.view l)
    (hother : ∀ j l, j ≠ i → blockOf (ents j) v l = blockOf (ents j) A.view l) :
    Owns (slots (Function.update ents i e) v) B.used := by
  rw [hf.used]
  refine (ho.clear (k := (i, k)) hne).congr fun x => ?_
  obtain ⟨j, l⟩ := x
  rw [slots_update]
  by_cases hj : j = i
  · subst hj
    rw [if_pos rfl, hown]
    by_cases hlk : l = k
    · rw [if_pos hlk, hlk, Function.update_self]
    · rw [if_neg hlk, Function.update_of_ne fun h => hlk (Prod.mk.inj h).2]
      rfl
  · rw [if_neg hj, Function.update_of_ne fun h => hj (Prod.mk.inj h).1]
    exact hother j l hj

/-- Freeing a block of inode `i` disturbs no other block that is in a slot. -/
private theorem view_frees {k : ℕ} {x : ℕ × ℕ} (ho : Owns (slots ents A.view) A.used)
    (hf : A.Frees sb (blockOf (ents i) A.view k) B) (hx : x ≠ (i, k))
    (hx0 : slots ents A.view x ≠ 0) : B.view (slots ents A.view x) = A.view (slots ents A.view x) :=
  hf.view _ (ho.ne hx hx0) (.inr (ho.mem_used hx0))

/-- The slot of the indirect block as that of a block of the disk. -/
private theorem slots_indirectSlot {v : ℕ → BlockData} (j : ℕ) :
    slots ents v (j, indirectSlot) = (ents j).indirect.toNat := blockOf_indirectSlot

/-- Freeing a file block of inode `i` changes no slot. -/
private theorem blockOf_frees {k : ℕ} (ho : Owns (slots ents A.view) A.used)
    (hk : k ≠ indirectSlot) (hf : A.Frees sb (blockOf (ents i) A.view k) B) (j l : ℕ) :
    blockOf (ents j) B.view l = blockOf (ents j) A.view l := by
  refine blockOf_congr (fun hind => ?_) l
  have hslot : slots ents A.view (j, indirectSlot) = (ents j).indirect.toNat :=
    slots_indirectSlot j
  have hview := view_frees (x := (j, indirectSlot)) ho hf (fun h => hk (Prod.mk.inj h).2.symm)
  rw [hslot] at hview
  exact hview fun h => hind (toNat_eq_zero.mp h)

/-- The loops of `inode_clear` on inode `i`: `e` is its entry in memory. -/
structure Clearing (sb : SuperBlock) (A : MapState) (ents : ℕ → InodeEntry) (i : ℕ)
    (B : MapState) (e : InodeEntry) : Prop where
  owns : Owns (slots (Function.update ents i e) B.view) B.used
  entry : e = { ents i with addrs := e.addrs, indirect := e.indirect }
  inodes : ∀ x, sb.InInodes x → B.view x = A.view x
  others : ∀ j, j ≠ i → Undisturbed A.view B.view (ents j)

/-- Freeing a block of inode `i`; with the change `v` to the disk its slot is empty. -/
private theorem Clearing.free {v : ℕ → BlockData} {k : ℕ} {e' : InodeEntry} (hl : sb.Layout)
    (hin : ∀ n ∈ B.used, sb.InData n) (hc : Clearing sb A ents i B e)
    (hne : blockOf e B.view k ≠ 0) (hf : B.Frees sb (blockOf e B.view k) C)
    (hown : ∀ l, blockOf e' v l = if l = k then 0 else blockOf e B.view l)
    (hentry : e' = { e with addrs := e'.addrs, indirect := e'.indirect })
    (hv : ∀ n, (e.indirect ≠ 0 → n ≠ e.indirect.toNat) → v n = C.view n) :
    Clearing sb A ents i { C with view := v } e' := by
  have hself : (Function.update ents i e) i = e := Function.update_self _ _ _
  have hof : ∀ j, j ≠ i → (Function.update ents i e) j = ents j := fun j hj =>
    Function.update_of_ne hj _ _
  have hslot : ∀ j l, j ≠ i → slots (Function.update ents i e) B.view (j, l)
      = blockOf (ents j) B.view l := fun j l hj => by rw [slots, hof j hj]
  have hf' : B.Frees sb (blockOf ((Function.update ents i e) i) B.view k) C := by rwa [hself]
  have hindslot : slots (Function.update ents i e) B.view (i, indirectSlot) = e.indirect.toNat := by
    rw [slots_indirectSlot, hself]
  -- a block of another inode is neither freed nor the indirect block
  have hkeep : ∀ j l, j ≠ i → blockOf (ents j) B.view l ≠ 0 →
      v (blockOf (ents j) B.view l) = B.view (blockOf (ents j) B.view l) := by
    intro j l hj hne'
    rw [← hslot j l hj] at hne' ⊢
    rw [hv _ fun _ => ?_]
    · exact view_frees hc.owns hf' (fun h => hj (Prod.mk.inj h).1) hne'
    · rw [← hindslot]
      exact hc.owns.ne (fun h => hj (Prod.mk.inj h).1) hne'
  have hblock : ∀ j, j ≠ i → Undisturbed B.view v (ents j) := fun j hj =>
    undisturbed_of_view fun l => hkeep j l hj
  refine ⟨?_, ?_, fun x hx => ?_, fun j hj => (hc.others j hj).trans (hblock j hj)⟩
  · have howns := owns_clear (v := v) (e := e') hc.owns (by rwa [hself]) hf'
      (by rw [hself]; exact hown) fun j l hj => by rw [hof j hj]; exact (hblock j hj l).1
    rwa [Function.update_idem] at howns
  · rw [hentry, hc.entry]
  · have hxk : x ≠ blockOf e B.view k := by
      rintro rfl
      have hmem := hc.owns.mem_used (k := (i, k)) (by rw [slots, hself]; exact hne)
      rw [slots, hself] at hmem
      exact hl.not_inInodes (hin _ hmem) hx
    show v x = A.view x
    rw [hv x fun hind => ?_, hf.view x hxk (.inl hx), hc.inodes x hx]
    rintro rfl
    have hmem := hc.owns.mem_used (k := (i, indirectSlot))
      (by rw [hindslot]; exact fun h => hind (toNat_eq_zero.mp h))
    rw [hindslot] at hmem
    exact hl.not_inInodes (hin _ hmem) hx

/-- The first loop of `inode_clear`. -/
private theorem wp_clearDirect {Q : InodeEntry → σ → Prop} (hl : sb.Layout) (h : M.At s A)
    (hheld : A.held = ∅) (ho : Owns (slots ents A.view) A.used)
    (hQ : ∀ e B t, M.At t B → B.held = ∅ → Clearing sb A ents i B e →
      (∀ k < inodeNumDirect, e.addr k = 0) → Q e t) :
    wp (forUpToWith inodeNumDirect (ents i) (clearDirect M.cache ctx)) Q E s := by
  have h0 : Clearing sb A ents i A (ents i) :=
    ⟨by rw [Function.update_eq_self]; exact ho, rfl, fun _ _ => rfl, fun _ _ => .refl _ _⟩
  refine wp_mono (wp_forUpToWith (fun k e t => ∃ B, M.At t B ∧ B.held = ∅ ∧
    Clearing sb A ents i B e ∧ ∀ j < k, e.addr j = 0) ⟨A, h, hheld, h0, by simp⟩ ?_)
    (fun e t ht => ?_) fun _ he => he
  · rintro k hk e t ⟨B, ht, hB, hc, hdone⟩
    rw [clearDirect]
    by_cases haddr : e.addr k = 0
    · rw [if_neg (by simpa using haddr), wp_pure]
      refine ⟨B, ht, hB, hc, fun j hj => ?_⟩
      rcases Nat.lt_succ_iff_lt_or_eq.mp hj with hj | rfl
      · exact hdone j hj
      · exact haddr
    · have hself : (Function.update ents i e) i = e := Function.update_self _ _ _
      have hval : blockOf e B.view k = (e.addr k).toNat := blockOf_direct hk
      have hne : blockOf e B.view k ≠ 0 := by
        rw [hval]
        exact fun h => haddr (toNat_eq_zero.mp h)
      have hmem : (e.addr k).toNat ∈ B.used := by
        have hused := hc.owns.mem_used (k := (i, k)) (by rw [slots, hself]; exact hne)
        rwa [slots, hself, hval] at hused
      rw [if_pos haddr, wp_bind]
      refine wp_free ht hmem (by simp [hB]) fun C u hu hf => ?_
      rw [← hval] at hf
      have hkind : k ≠ indirectSlot := by
        simp only [indirectSlot, inodeMaxBlocks]
        omega
      have hf' : B.Frees sb (blockOf ((Function.update ents i e) i) B.view k) C := by rwa [hself]
      have hown : ∀ l, blockOf (e.setAddr k 0) C.view l
          = if l = k then 0 else blockOf e B.view l := by
        intro l
        rw [blockOf_setAddr hk]
        split
        · rfl
        · have := blockOf_frees hc.owns hkind hf' i l
          rwa [hself] at this
      have hnext : Clearing sb A ents i C (e.setAddr k 0) :=
        hc.free hl (fun n hn => ht.inData hn) hne hf hown rfl fun _ _ => rfl
      rw [wp_pure]
      refine ⟨C, hu, hf.held.trans hB, hnext, fun j hj => ?_⟩
      rw [e.addr_setAddr hk]
      split
      · rfl
      · exact hdone j (by omega)
  · obtain ⟨B, ht, hB, hc, hdone⟩ := ht
    exact hQ e B t ht hB hc hdone

/-- The loop of `inode_clear` over the first `n` numbers of the indirect block, which
is held. -/
private theorem wp_clearIndirect {Q : Unit → σ → Prop} (hl : sb.Layout)
    (hn : n ≤ inodeNumIndirect) (h : M.At s B)
    (hc : Clearing sb A ents i B e) (hind : e.indirect ≠ 0) (hheld : B.held = {e.indirect.toNat})
    (hQ : ∀ C t, M.At t C → C.held = {e.indirect.toNat} → Clearing sb A ents i C e →
      (∀ k < n, (C.view e.indirect.toNat).addr k = 0) → Q () t) :
    wp (forUpTo n (clearIndirect M.cache ctx e.indirect.toNat)) Q E s := by
  set b := e.indirect.toNat with hb
  have hself : (Function.update ents i e) i = e := Function.update_self _ _ _
  refine wp_mono (wp_forUpTo (fun k t => ∃ C, M.At t C ∧ C.held = {b} ∧
    Clearing sb A ents i C e ∧ ∀ j < k, (C.view b).addr j = 0) ⟨B, h, hheld, hc, by simp⟩ ?_)
    (fun _ t ht => ?_) fun _ he => he
  · rintro k hkn t ⟨C, ht, hC, hc, hdone⟩
    have hk : k < inodeNumIndirect := Nat.lt_of_lt_of_le hkn hn
    have hbheld : b ∈ C.held := by simp [hC]
    simp only [clearIndirect, wp_bind]
    refine wp_data ht hbheld ?_
    by_cases haddr : (C.view b).addr k = 0
    · rw [if_neg (by simpa using haddr), wp_pure]
      refine ⟨C, ht, hC, hc, fun j hj => ?_⟩
      rcases Nat.lt_succ_iff_lt_or_eq.mp hj with hj | rfl
      · exact hdone j hj
      · exact haddr
    · have hval : blockOf e C.view (inodeNumDirect + k) = ((C.view b).addr k).toNat :=
        blockOf_indirect hk hind
      have hne : blockOf e C.view (inodeNumDirect + k) ≠ 0 := by
        rw [hval]
        exact fun h => haddr (toNat_eq_zero.mp h)
      have hslot : slots (Function.update ents i e) C.view (i, inodeNumDirect + k)
          = ((C.view b).addr k).toNat := by rw [slots, hself, hval]
      have hbslot : slots (Function.update ents i e) C.view (i, indirectSlot) = b := by
        rw [slots_indirectSlot, hself]
      have hkind : inodeNumDirect + k ≠ indirectSlot := by
        simp only [indirectSlot, inodeMaxBlocks]
        omega
      have hnb : ((C.view b).addr k).toNat ≠ b := by
        rw [← hslot, ← hbslot]
        exact hc.owns.ne (fun h => hkind (Prod.mk.inj h).2) (by rw [hslot, ← hval]; exact hne)
      have hmem : ((C.view b).addr k).toNat ∈ C.used := by
        rw [← hslot]
        exact hc.owns.mem_used (by rw [hslot, ← hval]; exact hne)
      rw [if_pos haddr, wp_bind]
      refine wp_free ht hmem (by simp [hC, hnb]) fun D u hu hf => ?_
      have hsame : D.view b = C.view b := hf.view b hnb.symm (ht.access hbheld)
      have hDheld : D.held = {b} := hf.held.trans hC
      refine wp_store hu (by simp [hDheld]) fun w hw => ?_
      rw [← hval] at hf
      have hf' : C.Frees sb (blockOf ((Function.update ents i e) i) C.view (inodeNumDirect + k)) D := by
        rwa [hself]
      have hown : ∀ l, blockOf e (Function.update D.view b ((C.view b).setAddr k 0)) l
          = if l = inodeNumDirect + k then 0 else blockOf e C.view l := by
        intro l
        rw [hb, ← hsame, hb, blockOf_storeAddr hind hk]
        split
        · rfl
        · have := blockOf_frees hc.owns hkind hf' i l
          rwa [hself] at this
      refine ⟨_, hw, hDheld, hc.free hl (fun n hn => ht.inData hn) hne hf hown rfl fun n hn => ?_,
        fun j hj => ?_⟩
      · exact Function.update_of_ne (hn hind) _ _
      · show (Function.update D.view b ((C.view b).setAddr k 0) b).addr j = 0
        rw [Function.update_self, BlockData.addr_setAddr _ (by omega)]
        split
        · rfl
        · exact hdone j (by omega)
  · obtain ⟨C, ht, hC, hc, hdone⟩ := ht
    exact hQ C t ht hC hc hdone

/-- The last step of `inode_clear`: the entry, which has no blocks any more, is stored. -/
private theorem wp_clear_sync {Q : Inode → σ → Prop} (hl : sb.Layout) (h : M.At s B)
    (hA : A.held = ∅) (hheld : B.held = ∅) (hno : inode.inodeNo = i) (hi : i < sb.numInodes)
    (hc : Clearing sb A ents i B e) (hzero : ∀ k, blockOf e B.view k = 0)
    (hQ : ∀ e B t, M.At t B → Updates sb A ents i B e →
      e = { ents i with numBytes := 0, addrs := e.addrs, indirect := e.indirect } →
      Q { inode with valid := true, entry := e } t) :
    wp (inodeSync sb M.cache ctx
      { inode with valid := true, entry := { e with numBytes := 0 } } true) Q E s := by
  refine wp_inodeSync hl h hheld hno hi rfl fun t ht => ?_
  set e' : InodeEntry := { e with numBytes := 0 } with he'
  have hblock : ∀ k, blockOf e' B.view k = blockOf e B.view k := fun _ => rfl
  have hbytes : fileBlocks e'.numBytes.toNat = 0 := by
    show fileBlocks (0 : UInt32).toNat = 0
    decide
  have hind : e'.indirect = 0 := by
    have := hzero indirectSlot
    rwa [blockOf_indirectSlot, toNat_eq_zero] at this
  refine hQ e' _ t ht (updates_setEntry hl hi h (hc.owns.congr (slots_update_congr hblock)) ?_
    (hheld.trans hA.symm) (fun j hj _ => diskEntry_congr hl hc.inodes hj) hc.others) ?_
  · rw [hbytes]
    refine ⟨Nat.zero_le _, fun k _ => ?_, by simp [hind]⟩
    rw [hblock, hzero]
    simp
  · rw [he', hc.entry]

/-- **`inode_clear`** frees the blocks of the inode. -/
theorem wp_inodeClear {Q : Inode → σ → Prop} (hl : sb.Layout) (h : M.At s A)
    (hheld : A.held = ∅) (ho : Owns (slots ents A.view) A.used) (he : inode.entry = ents i)
    (hno : inode.inodeNo = i) (hi : i < sb.numInodes)
    (hQ : ∀ e B t, M.At t B → Updates sb A ents i B e →
      e = { ents i with numBytes := 0, addrs := e.addrs, indirect := e.indirect } →
      Q { inode with valid := true, entry := e } t) :
    wp (inodeClear sb M.cache ctx inode) Q E s := by
  simp only [inodeClear, he, wp_bind]
  refine wp_clearDirect hl h hheld ho fun e B t ht hB hc hdirect => ?_
  have hself : (Function.update ents i e) i = e := Function.update_self _ _ _
  by_cases hind : e.indirect = 0
  · rw [if_neg (by simpa using hind)]
    simp only [wp_bind, wp_pure]
    refine wp_clear_sync hl ht hheld hB hno hi hc (fun k => ?_) hQ
    rw [blockOf]
    split
    · rename_i hk
      rw [hdirect k hk]
      rfl
    · simp [hind]
  · have hslot : slots (Function.update ents i e) B.view (i, indirectSlot) = e.indirect.toNat := by
      rw [slots_indirectSlot, hself]
    have hne : e.indirect.toNat ≠ 0 := fun h => hind (toNat_eq_zero.mp h)
    have hmem : e.indirect.toNat ∈ B.used := by
      rw [← hslot]
      exact hc.owns.mem_used (by rwa [hslot])
    have hnot : e.indirect.toNat ∉ B.held := by simp [hB]
    rw [if_pos hind]
    simp only [wp_bind]
    refine wp_acquire ht (.inr hmem) hnot fun t ht => ?_
    have hc₁ : Clearing sb A ents i { B with held := insert e.indirect.toNat B.held } e :=
      ⟨hc.owns, hc.entry, hc.inodes, hc.others⟩
    -- the loop must not be unrolled
    generalize hN : inodeNumIndirect = N
    refine wp_clearIndirect hl (Nat.le_of_eq hN.symm) ht hc₁ hind (by simp [hB])
      fun C t ht hC hc₂ hdone => ?_
    have hbC : e.indirect.toNat ∈ C.held := by simp [hC]
    refine wp_sync ht hbC fun t ht => wp_release ht hbC fun t ht => ?_
    have hempty : C.held.erase e.indirect.toNat = ∅ := by rw [hC]; simp
    rw [hempty] at ht
    set D : MapState := { C with held := ∅ } with hD
    have hslot' : slots (Function.update ents i e) D.view (i, indirectSlot) = e.indirect.toNat := by
      rw [slots_indirectSlot, hself]
    have hmem' : e.indirect.toNat ∈ D.used := by
      rw [← hslot']
      exact hc₂.owns.mem_used (by rwa [slots_indirectSlot, hself])
    refine wp_free ht hmem' (by simp [hD]) fun F t ht' hf => ?_
    rw [wp_pure]
    have hval : blockOf e D.view indirectSlot = e.indirect.toNat := blockOf_indirectSlot
    have hc₃ : Clearing sb A ents i D e := ⟨hc₂.owns, hc₂.entry, hc₂.inodes, hc₂.others⟩
    have hlast : ∀ k, blockOf { e with indirect := 0 } F.view k = 0 := by
      intro k
      rw [blockOf]
      split
      · rename_i hk
        have haddr : ({ e with indirect := 0 } : InodeEntry).addr k = 0 := hdirect k hk
        rw [haddr]
        rfl
      · simp
    -- before the block is freed no other slot of the inode is taken
    have hprev : ∀ k, k ≠ indirectSlot → blockOf e D.view k = 0 := by
      intro k hk
      by_cases hk12 : k < inodeNumDirect
      · rw [blockOf_direct hk12, hdirect k hk12]
        rfl
      · by_cases hkm : k < inodeMaxBlocks
        · have hlt : k - inodeNumDirect < inodeNumIndirect := by
            simp only [inodeMaxBlocks] at hkm
            omega
          rw [blockOf, if_neg hk12, if_pos hkm, if_neg hind]
          exact toNat_eq_zero.mpr (hdone _ (hN ▸ hlt))
        · rw [blockOf, if_neg hk12, if_neg hkm, if_neg hk]
    have hc₄ : Clearing sb A ents i F { e with indirect := 0 } := by
      refine hc₃.free (k := indirectSlot) hl (fun n hn => ht.inData hn) (by rwa [hval])
        (by rwa [hval]) (fun l => ?_) rfl fun _ _ => rfl
      rw [hlast]
      split
      · rfl
      · rename_i hl'
        exact (hprev l hl').symm
    exact wp_clear_sync hl ht' hheld (hf.held.trans rfl) hno hi hc₄ hlast hQ

/-! ### `inode_put` -/

/-- **`inode_put`** of the last reference of an inode without links frees it: its entry
is no longer in use. -/
theorem wp_inodePut {Q : Option Inode → σ → Prop} (hl : sb.Layout) (h : M.At s A)
    (hheld : A.held = ∅) (ho : Owns (slots ents A.view) A.used) (he : inode.entry = ents i)
    (hno : inode.inodeNo = i) (hi : i < sb.numInodes)
    (hkeep : ¬ ((ents i).numLinks = 0 ∧ inode.rc = 1) →
      Q (some { inode with rc := inode.rc - 1 }) s)
    (hfree : (ents i).numLinks = 0 → inode.rc = 1 → ∀ e B t, M.At t B → Updates sb A ents i B e →
      e.type = inodeInvalid → e.numBytes = 0 → Q none t) :
    wp (inodePut sb M.cache ctx inode) Q E s := by
  rw [inodePut, he]
  by_cases hlast : (ents i).numLinks = 0 ∧ inode.rc = 1
  · rw [if_pos hlast, wp_bind]
    refine wp_inodeClear hl h hheld ho he hno hi fun e B t hup_at hup hentry => ?_
    have hB : B.held = ∅ := hup.held.trans hheld
    have hnot : toBlockNo sb i ∉ B.held := by simp [hB]
    have hmem := Finset.mem_insert_self (toBlockNo sb i) B.held
    simp only [hno, wp_bind, wp_pure]
    refine wp_acquire hup_at (.inl (hl.inInodes_toBlockNo hi)) hnot fun t ht => ?_
    refine wp_data ht hmem (wp_store ht hmem fun t ht => wp_sync ht hmem fun t ht => ?_)
    refine wp_release ht hmem fun t ht => ?_
    have hdisk : (B.view (toBlockNo sb i)).inodeEntry (i % inodePerBlock) = e := by
      have := hup.disk i hi
      rwa [if_pos rfl] at this
    dsimp only at ht
    rw [hdisk] at ht
    set e' : InodeEntry := { e with type := inodeInvalid } with he'
    have hbytes : e'.numBytes = 0 := by rw [he', hentry]
    have hblock : ∀ v k, blockOf e' v k = blockOf e v k := fun _ _ => rfl
    have hm := hup.maps
    refine hfree hlast.1 hlast.2 e' _ t (ht.setEntry hnot)
      (updates_setEntry hl hi hup_at (hup.owns.congr (slots_update_congr (hblock _)))
        ⟨hm.le, hm.block, hm.indirect⟩ hup.held (fun j hj hji => ?_) hup.others) rfl hbytes
    rw [hup.disk j hj, if_neg hji]
  · rw [if_neg hlast, wp_pure, ← he]
    exact hkeep hlast

end MapCache
end OsLab
