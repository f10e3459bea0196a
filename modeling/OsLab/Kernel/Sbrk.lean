/-
The end of the heap section (`sbrk` of `kernel/paging.c`).

The size is added to the end of the section modulo 2^64, and the end is only compared with the
start of the section when the size is negative, after the addition.

* `HeapState.sbrk` — the call over the list of sections of a process; `sbrk_single` — with one
  section from 0 on it is `PagingState.sbrk`;
* `Resized` — what the call is to do with the heap section and the mappings;
* `resized_iff` — it does so when the size is no multiple of the page size, or the new end is
  an address that is not below the start and the loop comes to the pages of the range only.
-/
import OsLab.Kernel.Paging

namespace OsLab

attribute [local instance] nPtePerTable_neZero

/-- `ST_HEAP` -/
abbrev stHeap : BitVec 64 := 0x8#64

/-- `struct section`, but for the fields of file-backed sections. -/
structure HeapSection where
  flags : BitVec 64
  begin : BitVec 64
  end_ : BitVec 64
  deriving DecidableEq

/-- `cur_section->flags & ST_HEAP` -/
def HeapSection.IsHeap (c : HeapSection) : Prop := c.flags &&& stHeap ≠ 0

instance (c : HeapSection) : Decidable c.IsHeap := inferInstanceAs (Decidable (_ ≠ _))

/-- The pages and tables, and the sections of a process from `section_head.next` on. -/
structure HeapState where
  pts : PtState
  sections : List HeapSection

namespace HeapState

/-- The loop of `sbrk` over the sections; `none` when the assertion fails. -/
def sbrkLoop (pts : PtState) (d : ℕ) (size : BitVec 64) :
    List HeapSection → Option (BitVec 64 × HeapState)
  | [] => some (-1, ⟨pts, []⟩)
  | cur :: rest =>
    if cur.IsHeap then
      let ret := cur.end_
      let cur := { cur with end_ := cur.end_ + size }
      if size.slt 0 then
        if cur.end_ < cur.begin then none
        else
          let pages := ((pageBase ret).toNat - (pageBase cur.end_).toNat) / 4096
          some (ret, ⟨pts.freeRange d pages (pageBase cur.end_), cur :: rest⟩)
      else some (ret, ⟨pts, cur :: rest⟩)
    else (sbrkLoop pts d size rest).map fun r => (r.1, ⟨r.2.pts, cur :: r.2.sections⟩)

/-- `sbrk` of the process with page directory `d` -/
def sbrk (s : HeapState) (d : ℕ) (size : BitVec 64) : Option (BitVec 64 × HeapState) :=
  if size.srem 4096#64 ≠ 0 then some (-1, s) else sbrkLoop s.pts d size s.sections

end HeapState

/-- With one section that starts at 0 the assertion holds, and the call is that of `PagingState`. -/
theorem sbrk_single (s : PagingState) (d : ℕ) (size : BitVec 64) :
    HeapState.sbrk ⟨s.pts, [⟨stHeap, 0, s.heapEnd d⟩]⟩ d size = some ((s.sbrk d size).1,
      ⟨(s.sbrk d size).2.pts, [⟨stHeap, 0, (s.sbrk d size).2.heapEnd d⟩]⟩) := by
  have hheap : (HeapSection.mk stHeap 0 (s.heapEnd d)).IsHeap := by
    show stHeap &&& stHeap ≠ 0
    decide
  have hlt : ¬s.heapEnd d + size < 0 := BitVec.not_lt_zero
  unfold HeapState.sbrk PagingState.sbrk
  by_cases hsize : size.srem 4096#64 ≠ 0
  · rw [if_pos hsize, if_pos hsize]
  · rw [if_neg hsize, if_neg hsize, HeapState.sbrkLoop, if_pos hheap]
    dsimp only
    rw [if_neg hlt]
    split
    · dsimp only
      rw [Function.update_self]
    · dsimp only
      rw [Function.update_self]

section Ranges

/-- Page `n` begins in a range of addresses. -/
def PageIn (lo hi : BitVec 64) (n : ℕ) : Prop := lo.toNat ≤ n * 4096 ∧ n * 4096 < hi.toNat

instance (lo hi : BitVec 64) (n : ℕ) : Decidable (PageIn lo hi n) :=
  inferInstanceAs (Decidable (_ ∧ _))

/-- The loop from the page of `lo` up to that of `hi` comes to the entry of page `n`; the
entries repeat every 2^48 bytes. -/
def Visits (lo hi : BitVec 64) (n : ℕ) : Prop :=
  ∃ k, (pageBase lo).toNat ≤ n * 4096 + k * 2 ^ 48 ∧ n * 4096 + k * 2 ^ 48 < (pageBase hi).toNat

variable {lo hi : BitVec 64} {n : ℕ}

/-- These are the entries that `PtState.freeRange` is told to empty. -/
theorem visits_iff (hn : n < 2 ^ 36) : Visits lo hi n ↔
    ∃ k < ((pageBase hi).toNat - (pageBase lo).toNat) / 4096,
      vpn (vaOf n) = vpn (pageBase lo + BitVec.ofNat 64 (4096 * k)) := by
  have hlow := pageBase_toNat lo
  have hhigh := pageBase_toNat hi
  have hmax := (pageBase hi).isLt
  rw [vpn_vaOf hn]
  unfold Visits vpn
  constructor
  · rintro ⟨k, hle, hlt⟩
    refine ⟨(n * 4096 + k * 2 ^ 48 - (pageBase lo).toNat) / 4096, by omega, ?_⟩
    rw [BitVec.toNat_add, BitVec.toNat_ofNat]
    omega
  · rintro ⟨k, hk, hvpn⟩
    rw [BitVec.toNat_add, BitVec.toNat_ofNat] at hvpn
    refine ⟨((pageBase lo).toNat + 4096 * k) / 2 ^ 48, ?_, ?_⟩ <;> omega

/-- Below 2^48, and with ends at page boundaries, the loop comes to the pages of the range. -/
theorem visits_iff_pageIn (hlo : lo.toNat % 4096 = 0) (hhi : hi.toNat % 4096 = 0)
    (hmax : hi.toNat ≤ 2 ^ 48) : Visits lo hi n ↔ PageIn lo hi n := by
  have hlow := pageBase_toNat lo
  have hhigh := pageBase_toNat hi
  unfold Visits PageIn
  constructor
  · rintro ⟨k, hle, hlt⟩
    omega
  · rintro ⟨hle, hlt⟩
    refine ⟨0, ?_⟩
    rw [Nat.zero_mul, Nat.add_zero]
    constructor
    · omega
    · omega

end Ranges

/-- From `s`, where `cur` is the heap section behind those of `front`, the call has returned
`ret` in `t`. -/
inductive Resized (s : HeapState) (d : ℕ) (size : BitVec 64) (front : List HeapSection)
    (cur : HeapSection) (back : List HeapSection) : BitVec 64 → HeapState → Prop
  | failed : Resized s d size front cur back (-1) s
  | done (new : BitVec 64) (t : HeapState)
      (sum : (new.toNat : ℤ) = cur.end_.toNat + size.toInt)
      (above : cur.begin ≤ new)
      (section_ : t.sections = front ++ { cur with end_ := new } :: back)
      (mapping : ∀ e n, n < 2 ^ 36 → t.pts.entry e (vaOf n) =
        if size.toInt < 0 ∧ e = d ∧ PageIn new cur.end_ n ∧ s.pts.entry e (vaOf n) &&& pteValid ≠ 0
        then 0 else s.pts.entry e (vaOf n)) :
      Resized s d size front cur back cur.end_ t

/-- The new end is an address, and not below the start. -/
def HeapSection.Bounds (cur : HeapSection) (size : BitVec 64) : Prop :=
  (cur.begin.toNat : ℤ) ≤ cur.end_.toNat + size.toInt ∧ cur.end_.toNat + size.toInt < 2 ^ 64

/-- The valid entries that the loop comes to are those of the pages from the new end up to the
old one. -/
def HeapState.Visited (s : HeapState) (d : ℕ) (lo hi : BitVec 64) : Prop :=
  ∀ n < 2 ^ 36, s.pts.entry d (vaOf n) &&& pteValid ≠ 0 → (PageIn lo hi n ↔ Visits lo hi n)

/-- `cur` is the heap section of `s`, behind the sections of `front`. -/
structure HeapState.Has (s : HeapState) (front : List HeapSection) (cur : HeapSection)
    (back : List HeapSection) : Prop where
  sections : s.sections = front ++ cur :: back
  front : ∀ c ∈ front, ¬c.IsHeap
  heap : cur.IsHeap

section Call

variable {s t : HeapState} {d m : ℕ} {pool : List Addr} {size ret new : BitVec 64}
variable {front back : List HeapSection} {cur : HeapSection}

namespace HeapState

/-- The sections in front are passed by. -/
theorem sbrkLoop_front (pts : PtState) (rest : List HeapSection)
    (hfront : ∀ c ∈ front, ¬c.IsHeap) : sbrkLoop pts d size (front ++ rest) =
      (sbrkLoop pts d size rest).map fun r => (r.1, ⟨r.2.pts, front ++ r.2.sections⟩) := by
  induction front with
  | nil => exact Option.map_id'.symm
  | cons c front ih =>
    rw [List.cons_append, sbrkLoop, if_neg (hfront c List.mem_cons_self),
      ih fun c' hc' => hfront c' (List.mem_cons_of_mem c hc'), Option.map_map]
    rfl

/-- The size is not negative: the end is moved. -/
theorem sbrk_grow (h : s.Has front cur back) (hsize : size.srem 4096#64 = 0)
    (hpos : 0 ≤ size.toInt) : s.sbrk d size =
      some (cur.end_, ⟨s.pts, front ++ { cur with end_ := cur.end_ + size } :: back⟩) := by
  have hslt : ¬size.slt 0 = true := by
    rw [BitVec.slt_iff_toInt_lt]
    exact Int.not_lt.mpr hpos
  rw [sbrk, if_neg (not_not.mpr hsize), h.sections, sbrkLoop_front _ _ h.front, sbrkLoop,
    if_pos h.heap]
  dsimp only
  rw [if_neg hslt]
  rfl

/-- The size is negative: the entries of the loop are emptied, if the assertion holds. -/
theorem sbrk_shrink (h : s.Has front cur back) (hsize : size.srem 4096#64 = 0)
    (hneg : size.toInt < 0) : s.sbrk d size =
      if cur.end_ + size < cur.begin then none
      else some (cur.end_, ⟨s.pts.freeRange d
        (((pageBase cur.end_).toNat - (pageBase (cur.end_ + size)).toNat) / 4096)
        (pageBase (cur.end_ + size)), front ++ { cur with end_ := cur.end_ + size } :: back⟩) := by
  have hslt : size.slt 0 = true := BitVec.slt_iff_toInt_lt.mpr hneg
  rw [sbrk, if_neg (not_not.mpr hsize), h.sections, sbrkLoop_front _ _ h.front, sbrkLoop,
    if_pos h.heap]
  dsimp only
  rw [if_pos hslt]
  split
  · rfl
  · rfl

/-- What the loop leaves of the entries. -/
theorem entry_freeRange (hcounts : PtState.Counts m pool (PtState.heldZero s.pts.mem.zero) s.pts)
    (hd : d < m) (lo hi : BitVec 64) {e n : ℕ} (hn : n < 2 ^ 36) [Decidable (Visits lo hi n)] :
    (s.pts.freeRange d (((pageBase hi).toNat - (pageBase lo).toNat) / 4096)
      (pageBase lo)).entry e (vaOf n)
      = if e = d ∧ Visits lo hi n then 0 else s.pts.entry e (vaOf n) := by
  rw [(hcounts.freeRange hd _ (pageBase lo) rfl).2.2]
  exact if_congr (and_congr_right fun _ => (visits_iff hn).symm) rfl rfl

end HeapState

/-- With its bounds kept, the sum does not wrap around. -/
theorem HeapSection.Bounds.sum (hb : cur.Bounds size) (hsize : size.srem 4096#64 = 0) :
    ((cur.end_ + size).toNat : ℤ) = cur.end_.toNat + size.toInt := by
  obtain ⟨hlow, hhigh⟩ := hb
  exact (sbrk_end hsize (by omega) hhigh).1

/-- A call with a multiple of the page size that returns has moved the end. -/
theorem HeapState.sbrk_cases (h : s.Has front cur back) (hsize : size.srem 4096#64 = 0)
    (hcall : s.sbrk d size = some (ret, t)) : ret = cur.end_ ∧
      t.sections = front ++ { cur with end_ := cur.end_ + size } :: back ∧
      (size.toInt < 0 → t.pts = s.pts.freeRange d
        (((pageBase cur.end_).toNat - (pageBase (cur.end_ + size)).toNat) / 4096)
        (pageBase (cur.end_ + size))) := by
  by_cases hneg : size.toInt < 0
  · rw [sbrk_shrink h hsize hneg] at hcall
    split at hcall
    · cases hcall
    · cases hcall
      exact ⟨rfl, rfl, fun _ => rfl⟩
  · rw [sbrk_grow h hsize (Int.not_lt.mp hneg)] at hcall
    cases hcall
    exact ⟨rfl, rfl, fun hlt => absurd hlt hneg⟩

/-- The loop empties just the valid entries of the range when it comes to no other valid ones. -/
theorem mapping_iff (hcounts : PtState.Counts m pool (PtState.heldZero s.pts.mem.zero) s.pts)
    (hd : d < m) (hneg : size.toInt < 0) (lo hi : BitVec 64) :
    (∀ e n, n < 2 ^ 36 → (s.pts.freeRange d (((pageBase hi).toNat - (pageBase lo).toNat) / 4096)
        (pageBase lo)).entry e (vaOf n)
      = if size.toInt < 0 ∧ e = d ∧ PageIn lo hi n ∧ s.pts.entry e (vaOf n) &&& pteValid ≠ 0
        then 0 else s.pts.entry e (vaOf n)) ↔ s.Visited d lo hi := by
  classical
  constructor
  · intro hmap n hn hvalid
    have hne : s.pts.entry d (vaOf n) ≠ 0 := by
      intro h0
      rw [h0] at hvalid
      exact hvalid (by decide)
    have heq := hmap d n hn
    rw [HeapState.entry_freeRange hcounts hd lo hi hn] at heq
    constructor
    · intro hin
      by_contra hnot
      rw [if_neg fun hand => hnot hand.2, if_pos ⟨hneg, rfl, hin, hvalid⟩] at heq
      exact hne heq
    · intro hvisit
      rw [if_pos ⟨rfl, hvisit⟩] at heq
      by_contra hnot
      rw [if_neg fun hand => hnot hand.2.2.1] at heq
      exact hne heq.symm
  · intro hvisited e n hn
    rw [HeapState.entry_freeRange hcounts hd lo hi hn]
    by_cases hvalid : s.pts.entry e (vaOf n) &&& pteValid = 0
    · -- an entry that is not valid is empty already
      rw [hcounts.entry_zero hvalid, ite_self, ite_self]
    · by_cases he : e = d
      · subst he
        refine if_congr ?_ rfl rfl
        rw [← hvisited n hn hvalid]
        exact ⟨fun hand => ⟨hneg, rfl, hand.2, hvalid⟩, fun hand => ⟨rfl, hand.2.2.1⟩⟩
      · rw [if_neg fun hand => he hand.1, if_neg fun hand => he hand.2.1]

/-- A call that did what it is to do kept the bounds. -/
theorem Resized.bounds (h : s.Has front cur back) (hsize : size.srem 4096#64 = 0)
    (hcall : s.sbrk d size = some (ret, t)) (hres : Resized s d size front cur back ret t) :
    cur.Bounds size := by
  obtain ⟨hret, hsections, -⟩ := s.sbrk_cases h hsize hcall
  cases hres with
  | failed =>
    -- the section is as before, so that the size is 0; and its end is the last address
    rw [h.sections] at hsections
    have hcur := (List.cons.inj (List.append_cancel_left hsections)).1
    have hend : cur.end_ = cur.end_ + size := congrArg HeapSection.end_ hcur
    have hzero : size = 0 := by
      have hadd : cur.end_ + 0 = cur.end_ + size := (BitVec.add_zero _).trans hend
      exact (BitVec.add_right_inj _).mp hadd.symm
    have hmax : cur.end_.toNat = 2 ^ 64 - 1 := by
      rw [← hret]
      rfl
    have hbegin := cur.begin.isLt
    rw [hzero]
    constructor
    · show (cur.begin.toNat : ℤ) ≤ cur.end_.toNat + 0
      omega
    · show (cur.end_.toNat : ℤ) + 0 < 2 ^ 64
      omega
  | done new t sum above section_ mapping =>
    have hnew := new.isLt
    have hle : cur.begin.toNat ≤ new.toNat := above
    constructor
    · rw [← sum]
      omega
    · rw [← sum]
      omega

end Call

/-- **The heap is resized** as it should be exactly when the size is no multiple of the page size,
or the new end is an address that is not below the start and, for a negative size, the loop
comes to no other mapping than those of the range. -/
theorem resized_iff (s : HeapState) (d m : ℕ) (pool : List Addr) (size : BitVec 64)
    (front : List HeapSection) (cur : HeapSection) (back : List HeapSection)
    (h : s.Has front cur back) (hd : d < m)
    (hcounts : PtState.Counts m pool (PtState.heldZero s.pts.mem.zero) s.pts) :
    (∃ ret t, s.sbrk d size = some (ret, t) ∧ Resized s d size front cur back ret t) ↔
      size.srem 4096#64 ≠ 0 ∨
        cur.Bounds size ∧ (size.toInt < 0 → s.Visited d (cur.end_ + size) cur.end_) := by
  constructor
  · rintro ⟨ret, t, hcall, hres⟩
    by_cases hsize : size.srem 4096#64 ≠ 0
    · exact .inl hsize
    · have hmod := not_not.mp hsize
      have hbounds := hres.bounds h hmod hcall
      obtain ⟨-, hsections, hpts⟩ := s.sbrk_cases h hmod hcall
      refine .inr ⟨hbounds, fun hneg => ?_⟩
      rw [← mapping_iff hcounts hd hneg, ← hpts hneg]
      cases hres with
      | failed =>
        rw [h.sections] at hsections
        have hcur := (List.cons.inj (List.append_cancel_left hsections)).1
        have hend : cur.end_ = cur.end_ + size := congrArg HeapSection.end_ hcur
        have hsum := hbounds.sum hmod
        rw [← hend] at hsum
        omega
      | done new t sum above section_ mapping =>
        rw [hsections] at section_
        have hcur := (List.cons.inj (List.append_cancel_left section_)).1
        have hend : cur.end_ + size = new := congrArg HeapSection.end_ hcur
        rw [hend]
        exact mapping
  · rintro (hsize | ⟨hbounds, hvisited⟩)
    · exact ⟨-1, s, if_pos hsize, .failed⟩
    · by_cases hsize : size.srem 4096#64 ≠ 0
      · exact ⟨-1, s, if_pos hsize, .failed⟩
      · have hmod := not_not.mp hsize
        have hsum := hbounds.sum hmod
        have habove : cur.begin ≤ cur.end_ + size := by
          rw [BitVec.le_def]
          have hlow := hbounds.1
          omega
        by_cases hneg : size.toInt < 0
        · refine ⟨_, _, (HeapState.sbrk_shrink h hmod hneg).trans (if_neg ?_),
            .done (cur.end_ + size) _ hsum habove rfl ?_⟩
          · exact BitVec.not_lt.mpr habove
          · exact (mapping_iff hcounts hd hneg _ _).mpr (hvisited hneg)
        · refine ⟨_, _, HeapState.sbrk_grow h hmod (Int.not_lt.mp hneg),
            .done (cur.end_ + size) _ hsum habove rfl fun e n _ => ?_⟩
          rw [if_neg fun hand => hneg hand.1]

/-- With ends at page boundaries below 2^48, the loop comes to no other mapping. -/
theorem HeapState.visited_of_low (s : HeapState) (d : ℕ) {lo hi : BitVec 64}
    (hlo : lo.toNat % 4096 = 0) (hhi : hi.toNat % 4096 = 0) (hmax : hi.toNat ≤ 2 ^ 48) :
    s.Visited d lo hi := fun _ _ _ => (visits_iff_pageIn hlo hhi hmax).symm

/-! ### Two calls -/

/-- A process with a heap section from 0 up to `hi`. -/
def HeapState.boot (hi : BitVec 64) : HeapState := ⟨PagingState.boot.pts, [⟨stHeap, 0, hi⟩]⟩

theorem HeapState.boot_has (hi : BitVec 64) :
    (HeapState.boot hi).Has [] ⟨stHeap, 0, hi⟩ [] := by
  refine ⟨rfl, List.forall_mem_nil _, ?_⟩
  show stHeap &&& stHeap ≠ 0
  decide

/-- A heap of two pages gives the second one back, which has been written. -/
theorem resized_page : ∃ (s : HeapState) (ret : BitVec 64) (t : HeapState),
    s.sbrk 0 (-0x1000#64) = some (ret, t) ∧ s.pts.entry 0 0x1000#64 &&& pteValid ≠ 0 ∧
      t.pts.entry 0 0x1000#64 = 0 ∧
      Resized s 0 (-0x1000#64) [] ⟨stHeap, 0, 0x2000#64⟩ [] ret t := by
  have hrun : ((pagingSystem PagingState.bootPool 1).exec PagingState.InRange .boot
      [.sbrk 0 0x2000#64, .fault 0 0x1008#64 0, .store 0 0x1010#64 7#64]).map
      (fun s => (s.entry 0 0x1000#64 &&& pteValid,
        (HeapState.sbrk ⟨s.pts, [⟨stHeap, 0, 0x2000#64⟩]⟩ 0 (-0x1000#64)).map
          fun r => r.2.pts.entry 0 0x1000#64)) = some (1#64, some 0#64) := by
    decide +kernel
  obtain ⟨s, hs, heq⟩ := Option.map_eq_some_iff.mp hrun
  obtain ⟨hvalid, hcall⟩ := Prod.mk.inj heq
  obtain ⟨⟨ret, t⟩, hsbrk, hgone⟩ := Option.map_eq_some_iff.mp hcall
  have hinv := PagingState.boot_start.inv_of_leads (System.leads_of_exec hs)
  have hcounts : PtState.Counts 1 PagingState.bootPool (PtState.heldZero s.pts.mem.zero) s.pts := by
    rw [hinv.zero_eq]
    exact hinv.counts
  have hhas : HeapState.Has ⟨s.pts, [⟨stHeap, 0, 0x2000#64⟩]⟩ [] ⟨stHeap, 0, 0x2000#64⟩ [] :=
    ⟨rfl, List.forall_mem_nil _, (HeapState.boot_has 0x2000#64).heap⟩
  obtain ⟨ret', t', hsbrk', hres⟩ := (resized_iff ⟨s.pts, [⟨stHeap, 0, 0x2000#64⟩]⟩ 0 1
    PagingState.bootPool (-0x1000#64) [] ⟨stHeap, 0, 0x2000#64⟩ [] hhas Nat.one_pos
    hcounts).mpr (.inr ⟨⟨by decide, by decide⟩, fun _ =>
      HeapState.visited_of_low _ 0 (by decide) (by decide) (by decide)⟩)
  obtain ⟨rfl, rfl⟩ := Prod.mk.inj (Option.some.inj (hsbrk'.symm.trans hsbrk))
  refine ⟨_, ret', t', hsbrk', ?_, hgone, hres⟩
  show s.entry 0 0x1000#64 &&& pteValid ≠ 0
  rw [hvalid]
  decide

/-- **An empty heap made smaller**: the call returns 0, the old end, and all addresses but those
of the last page are in the heap then. -/
theorem not_resized_wrap :
    PtState.Counts 1 PagingState.bootPool (PtState.heldZero (HeapState.boot 0).pts.mem.zero)
      (HeapState.boot 0).pts ∧
    (HeapState.boot 0).Has [] ⟨stHeap, 0, 0⟩ [] ∧
    (HeapState.boot 0).sbrk 0 (-0x1000#64) = some (0, .boot 0xfffffffffffff000#64) ∧
    ∀ ret t, (HeapState.boot 0).sbrk 0 (-0x1000#64) = some (ret, t) →
      ¬Resized (.boot 0) 0 (-0x1000#64) [] ⟨stHeap, 0, 0⟩ [] ret t := by
  refine ⟨(PagingState.boot_start.inv 1).counts, HeapState.boot_has 0, ?_, fun ret t hcall hres => ?_⟩
  · rw [HeapState.sbrk_shrink (HeapState.boot_has 0) (by decide) (by decide)]
    rfl
  · have hbounds := hres.bounds (HeapState.boot_has 0) (by decide) hcall
    exact absurd hbounds.1 (by decide)

end OsLab
