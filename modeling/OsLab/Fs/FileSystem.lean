/-
Runs of the inode layer.

`FsState` has the block cache and the inodes in memory, and `fsCall` makes one call
of the inode layer.  `FsCall.Spec` says what the call does to the files, which are
lists of bytes, and `Conforms` that a sequence of calls does just that.

* `wp_fsCall` — one call;
* `files_conform` — over a block cache that behaves as a map, starting from an empty
  file system, every sequence of calls does what `Spec` says.
-/
import OsLab.Fs.Files

namespace OsLab

/-- The file system: the state of the block cache and the list of inodes in memory. -/
structure FsState (σ : Type) where
  store : σ
  inodes : ℕ → Option Inode

/-- The calls of the inode layer. -/
inductive FsCall
  | alloc (ctx : Option ℕ) (type : UInt16)
  /-- `inode_get` and `inode_lock` -/
  | get (i : ℕ)
  | write (op i : ℕ) (src : List UInt8) (offset : ℕ)
  | read (i offset count : ℕ)
  | clear (ctx : Option ℕ) (i : ℕ)
  | put (ctx : Option ℕ) (i : ℕ)
  deriving DecidableEq

/-- What a call returns. -/
inductive FsResult
  | none
  | inodeNo (i : ℕ)
  | count (n : ℕ)
  /-- the bytes copied to `dest`, and the result -/
  | bytes (dest : List UInt8) (n : ℕ)
  deriving DecidableEq

/-- Programs over the file system. -/
abbrev FsM (σ : Type) : Type → Type := StateT (FsState σ) (Except Fault)

section Calls

variable {σ α : Type} (sb : SuperBlock) (cache : BlockCache (StateT σ (Except Fault)))

/-- A program of the block cache. -/
def onStore (p : StateT σ (Except Fault) α) : FsM σ α := fun s =>
  match p.run s.store with
  | .ok (a, t) => .ok (a, { s with store := t })
  | .error e => .error e

/-- Inode `i` in memory changes. -/
def setInode (i : ℕ) (inode : Option Inode) : FsM σ Unit :=
  modify fun s => { s with inodes := Function.update s.inodes i inode }

/-- The inode in memory that the caller has a pointer to. -/
def inodeOf (i : ℕ) : FsM σ Inode := do
  match (← get).inodes i with
  | some inode => return inode
  | none => throw .panic

/-- `inode_get`: the inode in memory or a new one, with one more reference. -/
def inodeGet (i : ℕ) : FsM σ Inode := do
  if i = 0 ∨ sb.numInodes ≤ i then throw .panic
  else
    match (← get).inodes i with
    | some inode => return { inode with rc := inode.rc + 1 }
    | none => return { rc := 1, inodeNo := i, valid := false, entry := .zero }

/-- One call of the inode layer. -/
def fsCall : FsCall → FsM σ FsResult
  | .alloc ctx type => do return .inodeNo (← onStore (inodeAlloc sb cache ctx type))
  | .get i => do
    let inode ← inodeGet sb i
    let inode ← onStore (inodeLock sb cache inode)
    setInode i (some inode)
    return .none
  | .write op i src offset => do
    let inode ← inodeOf i
    let r ← onStore
      (inodeWrite sb cache (some op) inode (fun j => src.getD j 0) offset src.length)
    setInode i (some r.2)
    return .count r.1
  | .read i offset count => do
    let inode ← inodeOf i
    let r ← onStore (inodeRead cache inode offset count)
    return .bytes r.1 r.2
  | .clear ctx i => do
    let inode ← inodeOf i
    let inode ← onStore (inodeClear sb cache ctx inode)
    setInode i (some inode)
    return .none
  | .put ctx i => do
    let inode ← inodeOf i
    let inode ← onStore (inodePut sb cache ctx inode)
    setInode i inode
    return .none

theorem wp_onStore {p : StateT σ (Except Fault) α} {Q : α → FsState σ → Prop}
    {E : Fault → Prop} {s : FsState σ} :
    wp (onStore p) Q E s ↔ wp p (fun a t => Q a { s with store := t }) E s.store := by
  simp only [wp, StateT.run, onStore]
  cases p s.store with
  | error e => rfl
  | ok r => rfl

theorem wp_inodeOf {Q : Inode → FsState σ → Prop} {E : Fault → Prop} {s : FsState σ} {i : ℕ}
    (hnone : s.inodes i = none → ∀ e, E e) (hsome : ∀ inode, s.inodes i = some inode → Q inode s) :
    wp (inodeOf i) Q E s := by
  simp only [inodeOf, wp_bind, wp_get]
  cases h : s.inodes i with
  | none => exact hnone h _
  | some inode => exact hsome inode h

end Calls

/-! ### The files -/

/-- A file system as its files. -/
abbrev Files : Type := ℕ → Option (List UInt8)

namespace FsCall

/-- What the callers have to respect: they get inodes that are in use and drop only
references that they have; sizes are `usize`. -/
def Allowed {σ : Type} (s : FsState σ) (f : Files) : FsCall → Prop
  | .get i => f i ≠ none
  | .write _ _ src _ => src.length < usizeSize
  | .read _ _ count => count < usizeSize
  | .put _ i => ∀ inode, s.inodes i = some inode → inode.rc ≠ 0
  | .alloc _ _ | .clear _ _ => True

instance {σ : Type} (s : FsState σ) (f : Files) : (l : FsCall) → Decidable (l.Allowed s f)
  | .get i => inferInstanceAs (Decidable (f i ≠ none))
  | .write _ _ src _ => inferInstanceAs (Decidable (src.length < usizeSize))
  | .read _ _ count => inferInstanceAs (Decidable (count < usizeSize))
  | .put _ i => inferInstanceAs (Decidable (∀ inode ∈ s.inodes i, inode.rc ≠ 0))
  | .alloc _ _ | .clear _ _ => inferInstanceAs (Decidable True)

/-- The arguments are those the call is meant for, and there are inodes and blocks
left; `used` is the number of blocks in use. -/
def Fits {σ : Type} (sb : SuperBlock) (used : ℕ) (s : FsState σ) (f : Files) : FsCall → Prop
  | .alloc _ type => type ≠ inodeInvalid ∧ ∃ i, 0 < i ∧ i < sb.numInodes ∧ f i = none
  | .get _ => True
  | .write _ i src offset => s.inodes i ≠ none ∧ ∃ l, f i = some l ∧ offset ≤ l.length ∧
      offset + src.length ≤ inodeMaxBytes ∧
      used + blocksFor (max l.length (offset + src.length)) ≤ sb.numDataBlocks + blocksFor l.length
  | .read i offset count => s.inodes i ≠ none ∧ ∃ l, f i = some l ∧ offset ≤ l.length ∧
      offset + count < usizeSize
  | .clear _ i | .put _ i => s.inodes i ≠ none

/-- What a call does to the files, and what it returns. -/
def Spec (f : Files) (r : FsResult) (f' : Files) : FsCall → Prop
  | .alloc _ _ => ∃ i, r = .inodeNo i ∧ f i = none ∧ f' = Function.update f i (some [])
  | .get _ => f' = f
  | .write _ i src offset => ∃ l, f i = some l ∧ r = .count src.length ∧
      f' = Function.update f i (some (overwrite l offset src))
  | .read i offset count => ∃ l, f i = some l ∧
      r = .bytes ((l.drop offset).take count) (min count (l.length - offset)) ∧ f' = f
  | .clear _ i => f' = Function.update f i (some [])
  | .put _ i => f' = f ∨ f' = Function.update f i none

end FsCall

/-- The inodes in memory have the sizes of the files. -/
def FsState.Shows {σ : Type} (s : FsState σ) (f : Files) : Prop :=
  ∀ i inode, s.inodes i = some inode → ∃ l, f i = some l ∧ inode.entry.numBytes.toNat = l.length

namespace MapCache

variable {sb : SuperBlock} {σ : Type} (M : MapCache sb σ)

/-- The calls of the list, made in order from `s` on, return what `Spec` says and
change the files `f` as it says, as long as they are allowed and fit. -/
def Conforms : List FsCall → FsState σ → Files → Prop
  | [], s, f => s.Shows f
  | l :: ls, s, f => s.Shows f ∧
      (l.Allowed s f → l.Fits sb (M.abs s.store).used.card s f →
        ∃ r t f', (fsCall sb M.cache l).run s = .ok (r, t) ∧ l.Spec f r f' ∧ Conforms ls t f')

/-- An empty file system: no block is in use, and the inodes that are have no bytes. -/
structure Empty (s : FsState σ) : Prop where
  ok : M.Ok s.store
  held : (M.abs s.store).held = ∅
  used : (M.abs s.store).used = ∅
  inodes : ∀ i, s.inodes i = none
  blank : ∀ i, InUse sb (M.abs s.store).view i →
    (diskEntry sb (M.abs s.store).view i).numBytes = 0 ∧
    (diskEntry sb (M.abs s.store).view i).indirect = 0 ∧
    ∀ k, (diskEntry sb (M.abs s.store).view i).addr k = 0

/-- The files of a file system. -/
def filesOf (s : FsState σ) : Files := files sb (M.abs s.store).view

/-- What holds between the calls. -/
structure FsInv (s : FsState σ) (A : MapState) : Prop where
  store : M.At s.store A
  consistent : Consistent sb A
  loaded : ∀ i inode, s.inodes i = some inode → Loaded sb A.view i inode

variable {M} {s t : FsState σ} {A B : MapState} {i : ℕ} {inode : Inode} {l : FsCall}

theorem FsInv.abs_eq (h : M.FsInv s A) : M.abs s.store = A := h.store.2

theorem FsInv.shows (h : M.FsInv s A) : s.Shows (files sb A.view) := by
  intro i inode hinode
  obtain ⟨hfile, hlen⟩ := (h.loaded i inode hinode).files
  exact ⟨_, hfile, hlen.symm⟩

theorem files_ne_none {v : ℕ → BlockData} : files sb v i ≠ none ↔ InUse sb v i := by
  rw [files]
  split <;> simp_all

/-- The state after a call that has updated inode `i`. -/
theorem FsInv.update {store : σ} {e : InodeEntry} {x : Option Inode} (h : M.FsInv s A)
    (ht : M.At store B) (hup : Updates sb A (liveEntry sb A.view) i B e) (hc : Consistent sb B)
    (hpos : 0 < i) (hi : i < sb.numInodes) (hx : ∀ inode, x = some inode → Loaded sb B.view i inode) :
    M.FsInv ⟨store, Function.update s.inodes i x⟩ B := by
  refine ⟨ht, hc, fun j inode hinode => ?_⟩
  by_cases hji : j = i
  · subst hji
    have hself : x = some inode := (Function.update_self j x s.inodes).symm.trans hinode
    exact hx inode hself
  · have hold : s.inodes j = some inode := (Function.update_of_ne hji x s.inodes).symm.trans hinode
    exact (h.loaded j inode hold).update hup hpos hi hji

/-- The state after a call that has changed inode `i` in memory only. -/
theorem FsInv.setInode {store : σ} (h : M.FsInv s A) (ht : M.At store A)
    (hx : Loaded sb A.view i inode) :
    M.FsInv ⟨store, Function.update s.inodes i (some inode)⟩ A := by
  refine ⟨ht, h.consistent, fun j jnode hinode => ?_⟩
  by_cases hji : j = i
  · subst hji
    have hself : some inode = some jnode := (Function.update_self j _ s.inodes).symm.trans hinode
    exact Option.some.inj hself ▸ hx
  · exact h.loaded j jnode ((Function.update_of_ne hji _ s.inodes).symm.trans hinode)

/-- The postcondition of a call. -/
def Done (M : MapCache sb σ) (f : Files) (l : FsCall) (r : FsResult) (t : FsState σ) : Prop :=
  ∃ B, M.FsInv t B ∧ l.Spec f r (files sb B.view)

private theorem wp_call_alloc {ctx : Option ℕ} {type : UInt16} (hl : sb.Layout)
    (h : M.FsInv s A) :
    wp (fsCall sb M.cache (.alloc ctx type)) (M.Done (files sb A.view) (.alloc ctx type))
      (fun _ => ¬ (FsCall.alloc ctx type).Fits sb A.used.card s (files sb A.view)) s := by
  simp only [fsCall, wp_bind, wp_onStore, wp_pure]
  refine wp_alloc_file hl h.store h.consistent (fun _ hfull hfits => ?_)
    fun i hpos hi hfree _ B t ht hup hc hf => ?_
  · obtain ⟨htype, i, hpos, hi, hnone⟩ := hfits
    rcases hfull with h0 | hall
    · exact htype h0
    · exact files_ne_none.mpr (hall i hpos hi) hnone
  · refine ⟨B, ⟨ht, hc, fun j inode hinode => ?_⟩, i, rfl, ?_, hf⟩
    · have hlo := h.loaded j inode hinode
      refine hlo.update hup hpos hi ?_
      rintro rfl
      exact hfree hlo.inUse
    · by_contra hne
      exact hfree (files_ne_none.mp hne)

/-- `inode_get` and `inode_lock` of an inode in use: it is in memory afterwards. -/
theorem wp_fsCall_get {Q : FsResult → FsState σ → Prop} {E : Fault → Prop} (hl : sb.Layout)
    (h : M.FsInv s A) (huse : InUse sb A.view i)
    (hQ : ∀ t, M.FsInv t A → (∃ inode, t.inodes i = some inode) → Q .none t) :
    wp (fsCall sb M.cache (.get i)) Q E s := by
  have hpos : 0 < i := huse.1
  have hi : i < sb.numInodes := huse.2.1
  have hrange : ¬ (i = 0 ∨ sb.numInodes ≤ i) := by omega
  have hlock : ∀ inode : Inode, inode.rc ≠ 0 → inode.inodeNo = i →
      (inode.valid = true → inode.entry = diskEntry sb A.view i) →
      wp (do
        let inode ← onStore (inodeLock sb M.cache inode)
        setInode i (some inode)
        return FsResult.none) Q E s := by
    intro inode hrc hno hentry
    simp only [wp_bind, wp_onStore, wp_pure]
    refine wp_inodeLock hl h.store h.consistent.held hrc (hno ▸ hi) fun t ht => ?_
    refine hQ _ (h.setInode ht ⟨hno, huse, rfl, ?_⟩) ⟨_, Function.update_self _ _ _⟩
    show (if inode.valid = true then inode.entry else diskEntry sb A.view inode.inodeNo) = _
    split
    · rename_i hv
      exact hentry hv
    · rw [hno]
  rw [fsCall, inodeGet, if_neg hrange]
  simp only [wp_bind, wp_get]
  cases hinode : s.inodes i with
  | none =>
    rw [wp_pure]
    simpa only [wp_bind] using hlock ⟨1, i, false, .zero⟩ (by simp) rfl (by simp)
  | some inode =>
    have hlo := h.loaded i inode hinode
    rw [wp_pure]
    simpa only [wp_bind] using hlock { inode with rc := inode.rc + 1 } (Nat.succ_ne_zero _)
      hlo.inodeNo fun _ => hlo.entry

private theorem wp_call_get (hl : sb.Layout) (h : M.FsInv s A)
    (hallow : (FsCall.get i).Allowed s (files sb A.view)) :
    wp (fsCall sb M.cache (.get i)) (M.Done (files sb A.view) (.get i)) (fun _ => False) s :=
  wp_fsCall_get hl h (files_ne_none.mp hallow) fun _ ht _ => ⟨A, ht, rfl⟩

/-- A write that the assertions let through. -/
private theorem wp_call_write {op offset : ℕ} {src : List UInt8} (hl : sb.Layout)
    (h : M.FsInv s A) (hallow : src.length < usizeSize) :
    wp (fsCall sb M.cache (.write op i src offset))
      (M.Done (files sb A.view) (.write op i src offset))
      (fun _ => ¬ (FsCall.write op i src offset).Fits sb A.used.card s (files sb A.view)) s := by
  simp only [fsCall, wp_bind, wp_onStore, wp_pure]
  refine wp_inodeOf (fun hnone _ hfits => hfits.1 hnone) fun inode hinode => ?_
  have hlo := h.loaded i inode hinode
  obtain ⟨hfile, hlen⟩ := hlo.files
  by_cases hargs : offset ≤ inode.entry.numBytes.toNat ∧ offset + src.length ≤ inodeMaxBytes
  · obtain ⟨hoff, hmax⟩ := hargs
    refine wp_write_file hl h.store h.consistent hlo hfile (hlen ▸ hoff) hmax (fun _ hfull hfits => ?_)
      fun e B t ht hup hc hlo' _ hf => ?_
    · obtain ⟨-, l, hl', -, -, hblocks⟩ := hfits
      obtain rfl := Option.some.inj (hfile.symm.trans hl')
      omega
    · exact ⟨B, h.update ht hup hc hlo.inUse.1 hlo.inUse.2.1 fun _ h => Option.some.inj h ▸ hlo',
        _, hfile, rfl, hf⟩
  · -- an assertion fails
    have h32 : inode.entry.numBytes.toNat < 2 ^ 32 := inode.entry.numBytes.toNat_lt
    have hsize : usizeSize = 2 ^ 64 := rfl
    have hmax : inodeMaxBytes < 2 ^ 32 := by decide
    rw [inodeWrite, if_neg, wp_throw]
    · rintro ⟨-, l, hl', hoff, hend, -⟩
      obtain rfl := Option.some.inj (hfile.symm.trans hl')
      exact hargs ⟨hlen ▸ hoff, hend⟩
    · rintro ⟨hoff, hend, hwrap⟩
      refine hargs ⟨hoff, ?_⟩
      by_cases hlt : offset + src.length < usizeSize
      · rwa [Nat.mod_eq_of_lt hlt] at hend
      · have hmod : (offset + src.length) % usizeSize = offset + src.length - usizeSize := by
          rw [Nat.mod_eq_sub_mod (by omega), Nat.mod_eq_of_lt (by omega)]
        omega

private theorem wp_call_read {offset count : ℕ} (h : M.FsInv s A) (hallow : count < usizeSize) :
    wp (fsCall sb M.cache (.read i offset count))
      (M.Done (files sb A.view) (.read i offset count))
      (fun _ => ¬ (FsCall.read i offset count).Fits sb A.used.card s (files sb A.view)) s := by
  simp only [fsCall, wp_bind, wp_onStore, wp_pure]
  refine wp_inodeOf (fun hnone _ hfits => hfits.1 hnone) fun inode hinode => ?_
  have hlo := h.loaded i inode hinode
  obtain ⟨hfile, hlen⟩ := hlo.files
  by_cases hargs : offset ≤ inode.entry.numBytes.toNat ∧ offset + count < usizeSize
  · refine wp_mono (wp_read_file h.store h.consistent hlo hfile (hlen ▸ hargs.1) hargs.2)
      (fun r t ht => ?_) fun _ he => he
    obtain ⟨ht, hr1, hr2⟩ := ht
    refine ⟨A, ⟨ht, h.consistent, h.loaded⟩, _, hfile, ?_, rfl⟩
    rw [hr2, hr1, List.length_take, List.length_drop]
  · -- an assertion fails
    have h32 : inode.entry.numBytes.toNat < 2 ^ 32 := inode.entry.numBytes.toNat_lt
    have hsize : usizeSize = 2 ^ 64 := rfl
    have hfits : ¬ (FsCall.read i offset count).Fits sb A.used.card s (files sb A.view) := by
      rintro ⟨-, l, hl', hoff, hend⟩
      obtain rfl := Option.some.inj (hfile.symm.trans hl')
      exact hargs ⟨hlen ▸ hoff, hend⟩
    simp only [inodeRead]
    rw [if_neg, wp_throw]
    · exact hfits
    · rintro ⟨hoff, -, hwrap⟩
      -- the sum has wrapped around, so the count has not been clipped
      have hge : usizeSize ≤ offset + count := by
        by_contra hlt
        exact hargs ⟨hoff, by omega⟩
      have hmod : (count + offset) % usizeSize = offset + count - usizeSize := by
        rw [Nat.add_comm, Nat.mod_eq_sub_mod hge, Nat.mod_eq_of_lt (by omega)]
      rw [hmod, if_neg (by omega), Nat.add_comm, hmod] at hwrap
      omega

private theorem wp_call_clear {ctx : Option ℕ} (hl : sb.Layout) (h : M.FsInv s A) :
    wp (fsCall sb M.cache (.clear ctx i)) (M.Done (files sb A.view) (.clear ctx i))
      (fun _ => ¬ (FsCall.clear ctx i).Fits sb A.used.card s (files sb A.view)) s := by
  simp only [fsCall, wp_bind, wp_onStore, wp_pure]
  refine wp_inodeOf (fun hnone _ hfits => hfits hnone) fun inode hinode => ?_
  have hlo := h.loaded i inode hinode
  refine wp_clear_file hl h.store h.consistent hlo fun e B t ht hup hc hlo' hf => ?_
  exact ⟨B, h.update ht hup hc hlo.inUse.1 hlo.inUse.2.1 fun _ h => Option.some.inj h ▸ hlo', hf⟩

private theorem wp_call_put {ctx : Option ℕ} (hl : sb.Layout) (h : M.FsInv s A) :
    wp (fsCall sb M.cache (.put ctx i)) (M.Done (files sb A.view) (.put ctx i))
      (fun _ => ¬ (FsCall.put ctx i).Fits sb A.used.card s (files sb A.view)) s := by
  simp only [fsCall, wp_bind, wp_onStore, wp_pure]
  refine wp_inodeOf (fun hnone _ hfits => hfits hnone) fun inode hinode => ?_
  have hlo := h.loaded i inode hinode
  refine wp_put_file hl h.store h.consistent hlo (fun _ => ?_)
    fun _ _ e B t ht hup _ hc hf => ?_
  · exact ⟨A, h.setInode h.store ⟨hlo.inodeNo, hlo.inUse, hlo.valid, hlo.entry⟩, .inl rfl⟩
  · exact ⟨B, h.update ht hup hc hlo.inUse.1 hlo.inUse.2.1 (by simp), .inr hf⟩

/-- **One call.**  It does to the files what `Spec` says, or fails because its
arguments or the free space do not fit. -/
theorem wp_fsCall (hl : sb.Layout) (h : M.FsInv s A) (hallow : l.Allowed s (files sb A.view)) :
    wp (fsCall sb M.cache l) (M.Done (files sb A.view) l)
      (fun _ => ¬ l.Fits sb A.used.card s (files sb A.view)) s := by
  cases l with
  | alloc ctx type => exact wp_call_alloc hl h
  | get i => exact wp_mono (wp_call_get hl h hallow) (fun _ _ hq => hq) fun _ => False.elim
  | write op i src offset => exact wp_call_write hl h hallow
  | read i offset count => exact wp_call_read h hallow
  | clear ctx i => exact wp_call_clear hl h
  | put ctx i => exact wp_call_put hl h

/-- An empty file system. -/
theorem Empty.inv (h : M.Empty s) : M.FsInv s (M.abs s.store) := by
  have hempty : ∀ i v k, blockOf (liveEntry sb (M.abs s.store).view i) v k = 0 := by
    intro i v k
    rw [liveEntry]
    split
    · rename_i huse
      obtain ⟨-, hind, haddr⟩ := h.blank i huse
      rw [blockOf, hind, haddr]
      split
      · rfl
      · simp
    · exact blockOf_blank 0 v k
  have hzero : ∀ i, fileBlocks (liveEntry sb (M.abs s.store).view i).numBytes.toNat = 0 := by
    intro i
    rw [liveEntry]
    split
    · rename_i huse
      rw [(h.blank i huse).1]
      decide
    · decide
  have hind : ∀ i, (liveEntry sb (M.abs s.store).view i).indirect = 0 := fun i => by
    have := hempty i (M.abs s.store).view indirectSlot
    rwa [blockOf_indirectSlot, toNat_eq_zero] at this
  refine ⟨⟨h.ok, rfl⟩, ⟨h.held, ⟨fun k l hk => absurd (hempty _ _ _) hk, fun r => ?_⟩, fun i => ?_⟩,
    fun i inode hi => ?_⟩
  · rw [h.used]
    refine iff_of_false (Finset.notMem_empty r) ?_
    rintro ⟨hr, k, rfl⟩
    exact hr (hempty _ _ _)
  · rw [hzero]
    exact ⟨Nat.zero_le _, fun k _ => by rw [hempty]; simp, by simp [hind]⟩
  · rw [h.inodes i] at hi
    cases hi

theorem conforms_of_inv (hl : sb.Layout) (ls : List FsCall) :
    ∀ {s A}, M.FsInv s A → M.Conforms ls s (files sb A.view) := by
  induction ls with
  | nil =>
    intro s A h
    exact h.shows
  | cons l ls ih =>
    intro s A h
    refine ⟨h.shows, fun hallow hfits => ?_⟩
    rw [h.abs_eq] at hfits
    obtain ⟨r, t, hrun, B, hB, hspec⟩ := exists_run_of_wp
      (wp_mono (wp_fsCall hl h hallow) (fun _ _ hq => hq) fun _ he => he hfits)
    exact ⟨r, t, _, hrun, hspec, ih hB⟩

end MapCache

/-- **Every inode is its own list of bytes.**  Over a block cache that behaves as a map
of blocks with a correct allocator, from an empty file system on, every call of a
sequence of calls that are allowed and fit returns, with the result and the effect on
the files that `FsCall.Spec` says. -/
theorem files_conform (sb : SuperBlock) (hl : sb.Layout) (σ : Type) (M : MapCache sb σ)
    (s : FsState σ) (h : M.Empty s) (ls : List FsCall) : M.Conforms ls s (M.filesOf s) :=
  MapCache.conforms_of_inv hl ls h.inv

end OsLab
