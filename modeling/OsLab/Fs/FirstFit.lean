/-
A block cache that is a map of blocks, with an allocator that takes the first free block.

The state is what is observable of a cache (`MapState`), so that nothing is on a disk but
the blocks of the files.

* `firstFitCache` — it behaves as a map;
* `Consistent.card_used` — how many blocks the files of a consistent state use.
-/
import OsLab.Fs.Files
import Mathlib.Algebra.BigOperators.Group.Finset.Basic

namespace OsLab

/-- The first data block that is not in use. -/
def firstUnused (sb : SuperBlock) (used : Finset ℕ) : Option ℕ :=
  (List.range' sb.dataStart (sb.numBlocks - sb.dataStart)).find? (· ∉ used)

section FirstUnused

variable {sb : SuperBlock} {used : Finset ℕ} {n m : ℕ}

private theorem mem_dataRange :
    n ∈ List.range' sb.dataStart (sb.numBlocks - sb.dataStart) ↔ sb.InData n := by
  rw [List.mem_range'_1, SuperBlock.InData]
  omega

theorem firstUnused_eq_some (h : firstUnused sb used = some n) : sb.InData n ∧ n ∉ used :=
  ⟨mem_dataRange.mp (List.mem_of_find?_eq_some h), by simpa using List.find?_some h⟩

theorem firstUnused_eq_none (h : firstUnused sb used = none) (hn : sb.InData n) : n ∈ used := by
  simpa using List.find?_eq_none.mp h n (mem_dataRange.mpr hn)

/-- When the blocks in use are the first ones, the next one is taken. -/
theorem firstUnused_Ico (hn : sb.dataStart ≤ n) : firstUnused sb (Finset.Ico sb.dataStart n)
    = if n < sb.numBlocks then some n else none := by
  cases h : firstUnused sb (Finset.Ico sb.dataStart n) with
  | none =>
    rw [if_neg fun hlt => ?_]
    have hmem := firstUnused_eq_none h (n := n) ⟨hn, hlt⟩
    exact absurd (Finset.mem_Ico.mp hmem).2 (Nat.lt_irrefl n)
  | some m =>
    obtain ⟨hm, hnot⟩ := firstUnused_eq_some h
    have hle : n ≤ m := by
      by_contra hlt
      exact hnot (Finset.mem_Ico.mpr ⟨hm.1, by omega⟩)
    have hlt : n < sb.numBlocks := Nat.lt_of_le_of_lt hle hm.2
    rw [if_pos hlt]
    congr 1
    -- the search has come to `n` before
    by_contra hne
    obtain ⟨-, as, bs, heq, has⟩ := List.find?_eq_some_iff_append.mp h
    have hmem : n ∈ as ++ m :: bs := heq ▸ mem_dataRange.mpr ⟨hn, hlt⟩
    have hsorted : (as ++ m :: bs).Pairwise (· < ·) := by
      rw [← heq]
      exact List.pairwise_lt_range'
    rcases List.mem_append.mp hmem with hmem | hmem
    · exact absurd (has n hmem) (by simp)
    · rcases List.mem_cons.mp hmem with rfl | hmem
      · exact hne rfl
      · have := (List.pairwise_cons.mp (List.pairwise_append.mp hsorted).2.1).1 n hmem
        omega

end FirstUnused

/-- A block cache that is a map of blocks. -/
def firstFit (sb : SuperBlock) : BlockCache (StateT MapState (Except Fault)) where
  acquire n := do
    modify fun A => { A with held := insert n A.held }
    return n
  data b := do return (← get).view b
  store b d := modify fun A => { A with view := Function.update A.view b d }
  sync _ _ := pure ()
  release b := modify fun A => { A with held := A.held.erase b }
  alloc _ := do
    let A ← get
    match firstUnused sb A.used with
    | some n =>
      set { A with view := Function.update A.view n (.fill 0), used := insert n A.used }
      return n
    | none => throw .panic
  free _ n := modify fun A => { A with used := A.used.erase n }

section Rules

variable {sb : SuperBlock} {A : MapState} {n b : ℕ} {d : BlockData} {ctx : Option ℕ}
  {E : Fault → Prop}

theorem wp_firstFit_alloc {Q : ℕ → MapState → Prop} :
    wp ((firstFit sb).alloc ctx) Q E A ↔ (firstUnused sb A.used).elim (E .panic) fun n =>
      Q n ⟨Function.update A.view n (.fill 0), A.held, insert n A.used⟩ := by
  simp only [firstFit, wp_bind, wp_get]
  cases firstUnused sb A.used with
  | none => rfl
  | some n => rfl

end Rules

/-- **The cache behaves as a map**, and it has a correct allocator. -/
def firstFitCache (sb : SuperBlock) (hl : sb.Layout) : MapCache sb MapState where
  cache := firstFit sb
  Ok A := (∀ n ∈ A.used, sb.InData n) ∧ ∀ n ∈ A.held, A.Access sb n
  abs := id
  used_inData _ n hok hn := hok.1 n hn
  held_access _ n hok hn := hok.2 n hn
  acquire A n hok hacc _ := by
    refine ⟨rfl, ⟨hok.1, fun m hm => ?_⟩, rfl⟩
    rcases Finset.mem_insert.mp hm with rfl | hm
    · exact hacc
    · exact hok.2 m hm
  data _ _ _ _ := ⟨rfl, rfl⟩
  store _ _ _ hok _ := ⟨hok, rfl⟩
  sync _ _ _ hok _ := ⟨hok, rfl⟩
  release _ _ hok _ := ⟨⟨hok.1, fun m hm => hok.2 m (Finset.mem_of_mem_erase hm)⟩, rfl⟩
  alloc A ctx hok := by
    rw [wp_firstFit_alloc]
    cases h : firstUnused sb A.used with
    | none => exact fun n hn => firstUnused_eq_none h hn
    | some n =>
      obtain ⟨hdata, hfresh⟩ := firstUnused_eq_some h
      refine ⟨⟨fun m hm => ?_, fun m hm => ?_⟩,
        { inData := hdata, fresh := hfresh, used := rfl, held := rfl
          zero := Function.update_self _ _ _, view := fun k hk => ?_ }⟩
      · rcases Finset.mem_insert.mp hm with rfl | hm
        · exact hdata
        · exact hok.1 m hm
      · exact (hok.2 m hm).imp id Finset.mem_insert_of_mem
      · refine Function.update_of_ne ?_ _ _
        rintro rfl
        exact hk.elim (hl.not_inInodes hdata) hfresh
  free A ctx n hok hn hheld := by
    refine ⟨⟨fun m hm => hok.1 m (Finset.mem_of_mem_erase hm), fun m hm => ?_⟩,
      ⟨rfl, rfl, fun _ _ _ => rfl⟩⟩
    refine (hok.2 m hm).imp id fun hu => Finset.mem_erase.mpr ⟨?_, hu⟩
    rintro rfl
    exact hheld hm

/-! ### How many blocks are in use -/

section Count

variable {sb : SuperBlock} {A : MapState} {e : InodeEntry} {v : ℕ → BlockData} {c : ℕ}

/-- The slots of an inode with `c` file blocks. -/
def slotsOf (c : ℕ) : Finset ℕ :=
  Finset.range c ∪ if inodeNumDirect < c then {indirectSlot} else ∅

theorem card_slotsOf (hc : c ≤ inodeMaxBlocks) : (slotsOf c).card = slotCount c := by
  have hslot : indirectSlot = inodeMaxBlocks := rfl
  rw [slotsOf, slotCount, Finset.card_union_of_disjoint, Finset.card_range]
  · split <;> rfl
  · split
    · rw [Finset.disjoint_singleton_right, Finset.mem_range]
      omega
    · exact Finset.disjoint_empty_right _

/-- The slots that have a block. -/
theorem Maps.mem_slotsOf (hm : Maps e v c) (k : ℕ) : blockOf e v k ≠ 0 ↔ k ∈ slotsOf c := by
  have hle := hm.le
  have hslot : indirectSlot = inodeMaxBlocks := rfl
  rw [slotsOf, Finset.mem_union, Finset.mem_range]
  rcases Nat.lt_trichotomy k inodeMaxBlocks with hlt | rfl | hgt
  · rw [hm.block k hlt]
    refine ⟨.inl, fun h => h.resolve_right fun hmem => ?_⟩
    split at hmem
    · have := Finset.mem_singleton.mp hmem
      omega
    · exact absurd hmem (Finset.notMem_empty _)
  · have hind : blockOf e v inodeMaxBlocks ≠ 0 ↔ inodeNumDirect < c := by
      rw [← hm.indirect, blockOf_indirectSlot, Ne, toNat_eq_zero]
    rw [hind]
    by_cases hc : inodeNumDirect < c
    · simp [hc]
    · simp [hc]
      omega
  · have hzero : blockOf e v k = 0 := by
      have hmax : inodeMaxBlocks = inodeNumDirect + inodeNumIndirect := rfl
      rw [blockOf, if_neg (by omega), if_neg (by omega), if_neg (by omega)]
    refine iff_of_false (by simp [hzero]) ?_
    rintro (h | h)
    · omega
    · split at h
      · have := Finset.mem_singleton.mp h
        omega
      · exact absurd h (Finset.notMem_empty _)

/-- **The blocks in use are those of the files.** -/
theorem Consistent.card_used (h : Consistent sb A) : A.used.card
    = ∑ i ∈ Finset.range sb.numInodes, blocksFor (liveEntry sb A.view i).numBytes.toNat := by
  set ents := liveEntry sb A.view with hents
  set c := fun i => fileBlocks (ents i).numBytes.toNat with hc
  have hmaps : ∀ i, Maps (ents i) A.view (c i) := h.maps
  have hslot : ∀ i k, slots ents A.view (i, k) ≠ 0 ↔ k ∈ slotsOf (c i) := fun i k =>
    (hmaps i).mem_slotsOf k
  -- an inode that is not in use has no blocks
  have hdead : ∀ i, ¬ i < sb.numInodes → c i = 0 := by
    intro i hi
    have hnot : ¬ InUse sb A.view i := fun huse => hi huse.2.1
    show fileBlocks (liveEntry sb A.view i).numBytes.toNat = 0
    rw [liveEntry, if_neg hnot]
    decide
  have hused : A.used = (Finset.range sb.numInodes).biUnion fun i =>
      (slotsOf (c i)).image fun k => slots ents A.view (i, k) := by
    ext n
    simp only [Finset.mem_biUnion, Finset.mem_image, Finset.mem_range]
    rw [h.owns.mem]
    constructor
    · rintro ⟨hn, ⟨i, k⟩, rfl⟩
      have hk := (hslot i k).mp hn
      refine ⟨i, ?_, k, hk, rfl⟩
      by_contra hi
      rw [hdead i hi] at hk
      simp [slotsOf] at hk
    · rintro ⟨i, -, k, hk, rfl⟩
      exact ⟨(hslot i k).mpr hk, (i, k), rfl⟩
  rw [hused, Finset.card_biUnion]
  · refine Finset.sum_congr rfl fun i _ => ?_
    rw [Finset.card_image_of_injOn fun k hk l _ heq => ?_, card_slotsOf (hmaps i).le]
    · rfl
    · exact (Prod.mk.inj (h.owns.inj _ _ ((hslot i k).mpr hk) heq)).2
  · intro i _ j _ hij
    refine Finset.disjoint_left.mpr fun n hi hj => ?_
    obtain ⟨k, hk, rfl⟩ := Finset.mem_image.mp hi
    obtain ⟨l, hl, heq⟩ := Finset.mem_image.mp hj
    exact hij (Prod.mk.inj (h.owns.inj _ _ ((hslot i k).mpr hk) heq.symm)).1

end Count

end OsLab
