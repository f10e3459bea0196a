/-
Block caches that behave as a map of blocks.

`MapCache sb σ` is a block cache over states `σ` together with what it promises:
`acquire` returns the content of the last `store`, and `alloc` and `free` keep
the set of used data blocks.  The inode layer is proved correct over any
`MapCache`; its rules `wp_acquire`, …, `wp_free` are stated for the abstract
state `MapState` of the cache.

* `Layout` — what the areas of the super block have to look like;
* `wp_forChunks`, `wp_forUpToWith` — the loops of the inode layer.
-/
import OsLab.Fs.Inode
import Mathlib.Order.Interval.Finset.Nat

namespace OsLab

namespace SuperBlock

/-- The first data block. -/
def dataStart (sb : SuperBlock) : ℕ := sb.numBlocks - sb.numDataBlocks

/-- Block `n` is an inode block. -/
def InInodes (sb : SuperBlock) (n : ℕ) : Prop := sb.inodeStart ≤ n ∧ n < sb.bitmapStart

/-- Block `n` is a data block. -/
def InData (sb : SuperBlock) (n : ℕ) : Prop := sb.dataStart ≤ n ∧ n < sb.numBlocks

/-- The data blocks. -/
def dataBlocks (sb : SuperBlock) : Finset ℕ := Finset.Ico sb.dataStart sb.numBlocks

theorem mem_dataBlocks {sb : SuperBlock} {n : ℕ} : n ∈ sb.dataBlocks ↔ sb.InData n :=
  Finset.mem_Ico

/-- The inode area has room for the inodes, the bitmap is behind it, and the data
blocks are behind the bitmap; block numbers are `u32`. -/
structure Layout (sb : SuperBlock) : Prop where
  inodes : sb.inodeStart + sb.numInodes / inodePerBlock < sb.bitmapStart
  bitmap : sb.bitmapStart + 1 + sb.numBlocks / bitPerBlock ≤ sb.dataStart
  numBlocks : sb.numBlocks < 2 ^ 32
  dataBlocks : sb.numDataBlocks ≤ sb.numBlocks

theorem layout_mkfs : Layout mkfs := ⟨by decide, by decide, by decide, by decide⟩

variable {sb : SuperBlock} {n i : ℕ}

theorem Layout.card_dataBlocks (h : sb.Layout) : sb.dataBlocks.card = sb.numDataBlocks := by
  have := h.dataBlocks
  rw [SuperBlock.dataBlocks, Nat.card_Ico, dataStart]
  omega

theorem Layout.bitmapStart_lt (h : sb.Layout) (hn : sb.InData n) : sb.bitmapStart < n :=
  Nat.lt_of_lt_of_le (Nat.lt_of_lt_of_le (Nat.lt_succ_self _)
    (Nat.le_trans (Nat.le_add_right _ _) h.bitmap)) hn.1

theorem Layout.pos_of_inData (h : sb.Layout) (hn : sb.InData n) : 0 < n :=
  Nat.zero_lt_of_lt (h.bitmapStart_lt hn)

theorem Layout.inInodes_toBlockNo (h : sb.Layout) (hi : i < sb.numInodes) :
    sb.InInodes (toBlockNo sb i) := by
  have hdiv : i / inodePerBlock ≤ sb.numInodes / inodePerBlock :=
    Nat.div_le_div_right (Nat.le_of_lt hi)
  have := h.inodes
  exact ⟨Nat.le_add_right _ _, by rw [toBlockNo]; omega⟩

theorem Layout.not_inInodes (h : sb.Layout) (hn : sb.InData n) : ¬ sb.InInodes n := by
  rintro ⟨-, hlt⟩
  have := h.bitmapStart_lt hn
  omega

/-- A block number survives the assignment to a `u32`. -/
theorem Layout.toNat_ofNat (h : sb.Layout) (hn : sb.InData n) : (UInt32.ofNat n).toNat = n := by
  have := h.numBlocks
  have := hn.2
  rw [UInt32.toNat_ofNat']
  exact Nat.mod_eq_of_lt (by omega)

end SuperBlock

/-- What is observable of a block cache: the content of the blocks, the blocks
that are held, and the data blocks that are allocated. -/
structure MapState where
  view : ℕ → BlockData
  held : Finset ℕ
  used : Finset ℕ

namespace MapState

/-- The blocks that the inode layer may acquire. -/
def Access (sb : SuperBlock) (A : MapState) (n : ℕ) : Prop := sb.InInodes n ∨ n ∈ A.used

/-- The state after a block has been allocated. -/
structure Allocs (sb : SuperBlock) (A : MapState) (n : ℕ) (B : MapState) : Prop where
  inData : sb.InData n
  fresh : n ∉ A.used
  used : B.used = insert n A.used
  held : B.held = A.held
  zero : B.view n = .fill 0
  view : ∀ k, A.Access sb k → B.view k = A.view k

/-- The state after a block has been freed. -/
structure Frees (sb : SuperBlock) (A : MapState) (n : ℕ) (B : MapState) : Prop where
  used : B.used = A.used.erase n
  held : B.held = A.held
  view : ∀ k, k ≠ n → A.Access sb k → B.view k = A.view k

end MapState

/-- A block cache that behaves as a map of blocks, with a correct allocator. -/
structure MapCache (sb : SuperBlock) (σ : Type) where
  cache : BlockCache (StateT σ (Except Fault))
  /-- the states of the cache between two calls -/
  Ok : σ → Prop
  abs : σ → MapState
  used_inData : ∀ s n, Ok s → n ∈ (abs s).used → sb.InData n
  held_access : ∀ s n, Ok s → n ∈ (abs s).held → (abs s).Access sb n
  acquire : ∀ s n, Ok s → (abs s).Access sb n → n ∉ (abs s).held →
    wp (cache.acquire n)
      (fun b t => b = n ∧ Ok t ∧ abs t = { abs s with held := insert n (abs s).held })
      (fun _ => False) s
  data : ∀ s b, Ok s → b ∈ (abs s).held →
    wp (cache.data b) (fun d t => d = (abs s).view b ∧ t = s) (fun _ => False) s
  store : ∀ s b d, Ok s → b ∈ (abs s).held →
    wp (cache.store b d)
      (fun _ t => Ok t ∧ abs t = { abs s with view := Function.update (abs s).view b d })
      (fun _ => False) s
  sync : ∀ s ctx b, Ok s → b ∈ (abs s).held →
    wp (cache.sync ctx b) (fun _ t => Ok t ∧ abs t = abs s) (fun _ => False) s
  release : ∀ s b, Ok s → b ∈ (abs s).held →
    wp (cache.release b)
      (fun _ t => Ok t ∧ abs t = { abs s with held := (abs s).held.erase b }) (fun _ => False) s
  /-- `alloc` fails only when all data blocks are in use -/
  alloc : ∀ s ctx, Ok s →
    wp (cache.alloc ctx) (fun n t => Ok t ∧ (abs s).Allocs sb n (abs t))
      (fun _ => ∀ n, sb.InData n → n ∈ (abs s).used) s
  free : ∀ s ctx n, Ok s → n ∈ (abs s).used → n ∉ (abs s).held →
    wp (cache.free ctx n) (fun _ t => Ok t ∧ (abs s).Frees sb n (abs t)) (fun _ => False) s

namespace MapCache

variable {sb : SuperBlock} {σ α : Type} (M : MapCache sb σ) {s : σ} {A : MapState}
  {Q : α → σ → Prop} {E : Fault → Prop} {ctx : Option ℕ} {n b : ℕ}

/-- State `s` is a state of the cache and looks like `A`. -/
def At (s : σ) (A : MapState) : Prop := M.Ok s ∧ M.abs s = A

variable {M}

theorem At.inData (h : M.At s A) (hn : n ∈ A.used) : sb.InData n :=
  M.used_inData s n h.1 (h.2 ▸ hn)

theorem At.access (h : M.At s A) (hn : n ∈ A.held) : A.Access sb n := by
  obtain ⟨hok, rfl⟩ := h
  exact M.held_access s n hok hn

theorem wp_acquire {Q : ℕ → σ → Prop} (h : M.At s A) (ha : A.Access sb n) (hn : n ∉ A.held)
    (hQ : ∀ t, M.At t { A with held := insert n A.held } → Q n t) :
    wp (M.cache.acquire n) Q E s := by
  obtain ⟨hok, rfl⟩ := h
  refine wp_mono (M.acquire s n hok ha hn) (fun b t ht => ?_) fun _ => False.elim
  obtain ⟨rfl, ht⟩ := ht
  exact hQ t ht

theorem wp_data {Q : BlockData → σ → Prop} (h : M.At s A) (hb : b ∈ A.held)
    (hQ : Q (A.view b) s) : wp (M.cache.data b) Q E s := by
  obtain ⟨hok, rfl⟩ := h
  refine wp_mono (M.data s b hok hb) (fun d t ht => ?_) fun _ => False.elim
  obtain ⟨rfl, rfl⟩ := ht
  exact hQ

theorem wp_store {Q : Unit → σ → Prop} {d : BlockData} (h : M.At s A) (hb : b ∈ A.held)
    (hQ : ∀ t, M.At t { A with view := Function.update A.view b d } → Q () t) :
    wp (M.cache.store b d) Q E s := by
  obtain ⟨hok, rfl⟩ := h
  exact wp_mono (M.store s b d hok hb) (fun _ t ht => hQ t ht) fun _ => False.elim

theorem wp_sync {Q : Unit → σ → Prop} (h : M.At s A) (hb : b ∈ A.held)
    (hQ : ∀ t, M.At t A → Q () t) : wp (M.cache.sync ctx b) Q E s := by
  obtain ⟨hok, rfl⟩ := h
  exact wp_mono (M.sync s ctx b hok hb) (fun _ t ht => hQ t ht) fun _ => False.elim

theorem wp_release {Q : Unit → σ → Prop} (h : M.At s A) (hb : b ∈ A.held)
    (hQ : ∀ t, M.At t { A with held := A.held.erase b } → Q () t) :
    wp (M.cache.release b) Q E s := by
  obtain ⟨hok, rfl⟩ := h
  exact wp_mono (M.release s b hok hb) (fun _ t ht => hQ t ht) fun _ => False.elim

theorem wp_alloc {Q : ℕ → σ → Prop} (h : M.At s A)
    (hE : ∀ e, (∀ n, sb.InData n → n ∈ A.used) → E e)
    (hQ : ∀ n B t, M.At t B → A.Allocs sb n B → Q n t) : wp (M.cache.alloc ctx) Q E s := by
  obtain ⟨hok, rfl⟩ := h
  exact wp_mono (M.alloc s ctx hok) (fun n t ht => hQ n _ t ⟨ht.1, rfl⟩ ht.2) hE

theorem wp_free {Q : Unit → σ → Prop} (h : M.At s A) (hn : n ∈ A.used) (hheld : n ∉ A.held)
    (hQ : ∀ B t, M.At t B → A.Frees sb n B → Q () t) : wp (M.cache.free ctx n) Q E s := by
  obtain ⟨hok, rfl⟩ := h
  exact wp_mono (M.free s ctx n hok hn hheld) (fun _ t ht => hQ _ t ⟨ht.1, rfl⟩ ht.2)
    fun _ => False.elim

/-- When `alloc` fails, the used blocks are all data blocks. -/
theorem At.card_used_of_full (hl : sb.Layout) (h : M.At s A)
    (hfull : ∀ n, sb.InData n → n ∈ A.used) : A.used.card = sb.numDataBlocks := by
  have heq : A.used = sb.dataBlocks := by
    ext n
    rw [SuperBlock.mem_dataBlocks]
    exact ⟨h.inData, hfull n⟩
  rw [heq, hl.card_dataBlocks]

end MapCache

/-! ### Loops -/

variable {σ ε α : Type}

theorem chunk_le (offset remaining : ℕ) : chunk offset remaining ≤ remaining := Nat.min_le_left _ _

theorem chunk_pos {offset remaining : ℕ} (h : 0 < remaining) : 0 < chunk offset remaining := by
  have := Nat.mod_lt offset (show 0 < blockSize by decide)
  rw [chunk]
  omega

/-- **Loop rule** of `forChunks`: `I total` holds before the pass that starts at
`total`. -/
theorem wp_forChunks {count offset : ℕ} {body : ℕ → ℕ → α → StateT σ (Except ε) α}
    {E : ε → Prop} (I : ℕ → α → σ → Prop) {x : α} {s : σ} (h0 : I 0 x s)
    (hbody : ∀ total < count, ∀ x s, I total x s → wp (body (offset + total) total x)
      (fun y t => I (total + chunk (offset + total) (count - total)) y t) E s) :
    wp (forChunks count body count offset 0 x) (fun y t => I count y t) E s := by
  have hloop : ∀ fuel total x s, total ≤ count → count ≤ total + fuel → I total x s →
      wp (forChunks count body fuel (offset + total) total x) (fun y t => I count y t) E s := by
    intro fuel
    induction fuel with
    | zero =>
      intro total x s hle hfuel hI
      obtain rfl : total = count := by omega
      exact hI
    | succ fuel ih =>
      intro total x s hle hfuel hI
      rw [forChunks]
      by_cases hlt : total < count
      · rw [if_pos hlt, wp_bind]
        refine wp_mono (hbody total hlt x s hI) (fun y t ht => ?_) fun _ he => he
        have hpos : 0 < chunk (offset + total) (count - total) := chunk_pos (by omega)
        have hmax := chunk_le (offset + total) (count - total)
        simp only [Nat.add_assoc]
        exact ih _ y t (by omega) (by omega) ht
      · obtain rfl : total = count := by omega
        rw [if_neg hlt]
        exact hI
  exact hloop count 0 x s (Nat.zero_le _) (by omega) h0

/-- **Loop rule** of `forUpToWith`. -/
theorem wp_forUpToWith {body : ℕ → α → StateT σ (Except ε) α} {E : ε → Prop}
    (I : ℕ → α → σ → Prop) {n : ℕ} {x : α} {s : σ} (h0 : I 0 x s)
    (hbody : ∀ k < n, ∀ x t, I k x t → wp (body k x) (fun y t' => I (k + 1) y t') E t) :
    wp (forUpToWith n x body) (fun y t => I n y t) E s := by
  induction n with
  | zero => exact h0
  | succ n ih =>
    rw [forUpToWith, wp_bind]
    refine wp_mono (ih fun k hk => hbody k (by omega)) (fun y t ht => ?_) fun _ he => he
    exact hbody n (Nat.lt_succ_self n) y t ht

end OsLab
