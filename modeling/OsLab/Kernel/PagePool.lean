/-
The pool of free pages (`kernel/mem.c`, with the queue of `common/list.c`).

The free pages are a list that is threaded through the pages themselves: the first word
of each is the address of the next one.  The words of a page that is in use belong to its
holders, who may store anything there.

* `PoolState` — the functions of the source, on pointers;
* `PoolState.view` — the list as a list, as in `PageMem`; the functions do there what they
  do on the pointers (`kallocPage_view`, `kfreePage_view`);
* `PageMem.Accounted` — a page is on the list exactly when nobody refers to it;
* `pages_accounted` — in every run.
-/
import OsLab.Kernel.Pages
import OsLab.Lib.Chain
import OsLab.Lib.System
import Mathlib.Data.List.Range
import Mathlib.Data.List.Count

namespace OsLab

attribute [local instance] nPtePerTable_neZero

/-- The page after the last one: `PHYSTOP / PAGE_SIZE` -/
abbrev phystopPage : ℕ := 0x3f000

/-- The page with a physical page number. -/
def kernelPage (i : ℕ) : Addr := p2k (BitVec.ofNat 64 (i * 4096))

/-- The pages from `PAGE_BASE(end) + PAGE_SIZE` to `P2K(PHYSTOP)`; `first` is the number
of the first page behind the kernel. -/
def usablePages (first : ℕ) : List Addr := (List.range' first (phystopPage - first)).map kernelPage

/-- The pages, with the queue of the free ones. -/
structure PoolState where
  /-- the static variable `pages` -/
  pages : Addr
  words : Addr → PageData
  /-- `page_refs` -/
  ref : ℕ → ℤ
  /-- `alloc_page_cnt` -/
  allocated : ℤ
  /-- `zero_page` -/
  zero : Addr

namespace PoolState

/-- `add_to_queue` -/
def addToQueue (s : PoolState) (node : Addr) : PoolState :=
  { s with
    words := Function.update s.words node (Function.update (s.words node) 0 s.pages)
    pages := node }

/-- `fetch_from_queue` -/
def fetchFromQueue (s : PoolState) : Addr × PoolState :=
  let node := s.pages
  if node ≠ 0 then (node, { s with pages := s.words node 0 }) else (node, s)

/-- `kalloc_page`; `none` when `memset` and the store to `page_refs` go through `NULL`. -/
def kallocPage (s : PoolState) : Option (Addr × PoolState) :=
  let s := { s with allocated := s.allocated + 1 }
  let (newPage, s) := s.fetchFromQueue
  if newPage = 0 then none
  else some (newPage, { s with
      words := Function.update s.words newPage fun _ => 0
      ref := Function.update s.ref (pageIndex newPage) 1 })

/-- `ref_page` -/
def refPage (s : PoolState) (p : Addr) : PoolState :=
  { s with ref := Function.update s.ref (pageIndex p) (s.ref (pageIndex p) + 1) }

/-- `kfree_page` -/
def kfreePage (s : PoolState) (p : Addr) : PoolState :=
  let s := { s with ref := Function.update s.ref (pageIndex p) (s.ref (pageIndex p) - 1) }
  if s.ref (pageIndex p) = 0 ∧ p ≠ s.zero then
    { s with allocated := s.allocated - 1 }.addToQueue p
  else s

/-- `define_init(zero_page)` -/
def initZeroPage (s : PoolState) : Option PoolState :=
  s.kallocPage.map fun (p, s) => { s with zero := p }

/-- `define_early_init(alloc_page_cnt)` and `define_early_init(pages)`, with what the memory
holds before. -/
def initPages (first : ℕ) (words : Addr → PageData) : PoolState :=
  (usablePages first).foldl addToQueue ⟨0, words, fun _ => 0, 0, 0⟩

end PoolState

inductive PoolCall
  | kalloc
  | ref (p : Addr)
  | kfree (p : Addr)
  | zeroPage
  /-- a holder of the page stores -/
  | store (p : Addr) (d : PageData)

namespace PoolState

def step (s : PoolState) : PoolCall → Option PoolState
  | .kalloc => s.kallocPage.map (·.2)
  | .ref p => some (s.refPage p)
  | .kfree p => some (s.kfreePage p)
  | .zeroPage => s.initZeroPage
  | .store p d => some { s with words := Function.update s.words p d }

/-- Only pages with a positive count are referred to, released or written, and the pool is
not empty when a page is taken; the zero page is taken once. -/
def Allowed (first : ℕ) (s : PoolState) : PoolCall → Prop
  | .kalloc => s.pages ≠ 0
  | .ref p | .kfree p | .store p _ => p ∈ usablePages first ∧ 0 < s.ref (pageIndex p)
  | .zeroPage => s.zero = 0 ∧ s.pages ≠ 0

instance (first : ℕ) (s : PoolState) : (c : PoolCall) → Decidable (s.Allowed first c)
  | .kalloc => inferInstanceAs (Decidable (_ ≠ _))
  | .ref _ | .kfree _ | .store _ _ => inferInstanceAs (Decidable (_ ∧ _))
  | .zeroPage => inferInstanceAs (Decidable (_ ∧ _))

end PoolState

/-- The page allocator after `define_early_init`. -/
def poolSystem (first : ℕ) : System PoolState PoolCall where
  init s := ∃ words, s = PoolState.initPages first words
  step := PoolState.step

/-! ### The pages -/

section Usable

variable {first i j : ℕ} {p q : Addr}

theorem k2p_kernelPage (i : ℕ) : k2p (kernelPage i) = BitVec.ofNat 64 (i * 4096) := by
  unfold kernelPage k2p p2k
  exact BitVec.add_sub_cancel _ kspaceMask

theorem validPage_kernelPage (hi : i < 2 ^ 36) : ValidPage (kernelPage i) := by
  have hmask : ∀ j : Fin 64, (~~~pteFlagMask).getLsbD j = decide (12 ≤ j.val ∧ j.val < 48) := by
    decide
  unfold ValidPage
  rw [k2p_kernelPage, pteAddress]
  refine BitVec.eq_of_getLsbD_eq fun j hj => ?_
  rw [BitVec.getLsbD_and, hmask ⟨j, hj⟩, BitVec.getLsbD_ofNat]
  by_cases hlow : j < 12
  · -- the address is that of a page
    have hbit : (i * 2 ^ 12).testBit j = false := by
      rw [Nat.testBit_mul_two_pow]
      simp [hlow]
    rw [show i * 4096 = i * 2 ^ 12 from rfl, hbit]
    simp
  · by_cases hhigh : j < 48
    · simp [Nat.le_of_not_lt hlow, hhigh]
    · have hbit : (i * 4096).testBit j = false :=
        Nat.testBit_lt_two_pow (lt_of_lt_of_le (by omega : i * 4096 < 2 ^ 48)
          (Nat.pow_le_pow_right (by decide) (Nat.le_of_not_lt hhigh)))
      rw [hbit]
      simp

theorem mem_usablePages : p ∈ usablePages first ↔ ∃ i, first ≤ i ∧ i < phystopPage ∧ kernelPage i = p := by
  rw [usablePages, List.mem_map]
  refine exists_congr fun i => ?_
  rw [List.mem_range'_1, and_assoc]
  refine and_congr_right fun hle => and_congr_left' ?_
  simp only [phystopPage]
  omega

theorem validPage_of_usable (hp : p ∈ usablePages first) : ValidPage p := by
  obtain ⟨i, -, hi, rfl⟩ := mem_usablePages.mp hp
  exact validPage_kernelPage (lt_trans hi (by decide))

theorem nodup_usablePages : (usablePages first).Nodup := by
  refine (List.nodup_map_iff_inj_on List.nodup_range').mpr fun i hi j hj heq => ?_
  rw [List.mem_range'_1] at hi hj
  have hphys := congrArg (fun p => (k2p p).toNat) heq
  simp only [k2p_kernelPage, BitVec.toNat_ofNat, phystopPage] at hphys hi hj
  omega

/-- Another page has another counter. -/
theorem index_ne (hp : p ∈ usablePages first) (hq : q ∈ usablePages first) (hne : q ≠ p) :
    pageIndex q ≠ pageIndex p := fun h =>
  hne (ValidPage.index_inj (validPage_of_usable hq) (validPage_of_usable hp) h)

end Usable

/-! ### The list of the free pages -/

namespace PageMem

/-- What a page allocator does with its pages. -/
structure Accounted (first : ℕ) (m : PageMem) : Prop where
  nodup : m.free.Nodup
  usable : ∀ p ∈ m.free, p ∈ usablePages first
  free_iff : ∀ p ∈ usablePages first, p ≠ m.zero → (p ∈ m.free ↔ m.ref (pageIndex p) = 0)
  zero : m.zero ∉ m.free
  count : m.allocated + m.free.length = (usablePages first).length

variable {first : ℕ} {m m' : PageMem} {p : Addr}

/-- A page with a positive count is not on the list. -/
theorem Accounted.notMem (h : m.Accounted first) (hp : p ∈ usablePages first)
    (href : 0 < m.ref (pageIndex p)) : p ∉ m.free := by
  by_cases hzero : p = m.zero
  · rw [hzero]
    exact h.zero
  · rw [h.free_iff p hp hzero]
    exact ne_of_gt href

theorem accounted_kalloc (h : m.Accounted first) (hk : m.kallocPage = some (p, m')) :
    m'.Accounted first ∧ ((m.zero = 0) → { m' with zero := p }.Accounted first) := by
  unfold kallocPage at hk
  split at hk
  · cases hk
  rename_i q free hfree
  cases hk
  have hnodup := h.nodup
  rw [hfree] at hnodup
  obtain ⟨hnot, hrest⟩ := List.nodup_cons.mp hnodup
  have hmem : p ∈ usablePages first := h.usable p (hfree ▸ List.mem_cons_self)
  have hcount := h.count
  rw [hfree, List.length_cons] at hcount
  -- of the other pages neither the place nor the counter changes
  have hother : ∀ q ∈ usablePages first, q ≠ p → q ≠ m.zero →
      (q ∈ free ↔ Function.update m.ref (pageIndex p) 1 (pageIndex q) = 0) := by
    intro q hq hqp hzero
    have hiff := h.free_iff q hq hzero
    rw [hfree, List.mem_cons, or_iff_right hqp] at hiff
    rw [Function.update_of_ne (index_ne hmem hq hqp)]
    exact hiff
  refine ⟨⟨hrest, fun q hq => h.usable q (hfree ▸ List.mem_cons_of_mem p hq), fun q hq hzero => ?_,
    fun hz => h.zero (hfree ▸ List.mem_cons_of_mem p hz), ?_⟩, fun hnull => ?_⟩
  · by_cases hqp : q = p
    · subst hqp
      refine iff_of_false hnot ?_
      simp [Function.update_self]
    · exact hother q hq hqp hzero
  · push_cast at hcount ⊢
    show m.allocated + 1 + (free.length : ℤ) = _
    omega
  · refine ⟨hrest, fun q hq => h.usable q (hfree ▸ List.mem_cons_of_mem p hq), fun q hq hqp => ?_,
      hnot, ?_⟩
    · refine hother q hq hqp ?_
      rw [hnull]
      exact (validPage_of_usable hq).ne_zero
    · push_cast at hcount ⊢
      show m.allocated + 1 + (free.length : ℤ) = _
      omega

theorem accounted_ref (h : m.Accounted first) (hp : p ∈ usablePages first)
    (href : 0 < m.ref (pageIndex p)) : (m.refPage p).Accounted first := by
  refine ⟨h.nodup, h.usable, fun q hq hzero => ?_, h.zero, h.count⟩
  show q ∈ m.free ↔ Function.update m.ref (pageIndex p) _ (pageIndex q) = 0
  by_cases hqp : q = p
  · subst hqp
    rw [Function.update_self]
    exact iff_of_false (h.notMem hp href) (by omega)
  · rw [Function.update_of_ne (index_ne hp hq hqp)]
    exact h.free_iff q hq hzero

theorem accounted_kfree (h : m.Accounted first) (hp : p ∈ usablePages first)
    (href : 0 < m.ref (pageIndex p)) : (m.kfreePage p).Accounted first := by
  have hnot := h.notMem hp href
  have hother : ∀ q ∈ usablePages first, q ≠ p → q ≠ m.zero →
      (q ∈ m.free ↔ Function.update m.ref (pageIndex p) (m.ref (pageIndex p) - 1) (pageIndex q) = 0) := by
    intro q hq hqp hzero
    rw [Function.update_of_ne (index_ne hp hq hqp)]
    exact h.free_iff q hq hzero
  unfold kfreePage
  dsimp only
  split
  · rename_i hlast
    refine ⟨List.nodup_cons.mpr ⟨hnot, h.nodup⟩, fun q hq => ?_, fun q hq hzero => ?_, fun hz => ?_,
      ?_⟩
    · rcases List.mem_cons.mp hq with rfl | hq
      · exact hp
      · exact h.usable q hq
    · by_cases hqp : q = p
      · subst hqp
        exact iff_of_true List.mem_cons_self hlast.1
      · exact (List.mem_cons.trans (or_iff_right hqp)).trans (hother q hq hqp hzero)
    · rcases List.mem_cons.mp hz with hz | hz
      · exact hlast.2 hz.symm
      · exact h.zero hz
    · have hcount := h.count
      show m.allocated - 1 + ((p :: m.free).length : ℤ) = _
      rw [List.length_cons]
      push_cast
      omega
  · rename_i hkeep
    refine ⟨h.nodup, h.usable, fun q hq hzero => ?_, h.zero, h.count⟩
    by_cases hqp : q = p
    · subst hqp
      exact iff_of_false hnot fun hnull => hkeep ⟨hnull, hzero⟩
    · exact hother q hq hqp hzero

end PageMem

/-! ### The queue -/

namespace PoolState

variable {first : ℕ} {s t : PoolState} {l : List Addr} {p : Addr}

/-- The first word of a page. -/
def next (s : PoolState) (p : Addr) : Addr := s.words p 0

/-- The pages of a state whose queue has the pages of `l`. -/
def view (s : PoolState) (l : List Addr) : PageMem := ⟨l, s.ref, s.allocated, s.zero, s.words⟩

/-- The queue has the pages of `l`, and they are accounted for. -/
structure Inv (first : ℕ) (s : PoolState) (l : List Addr) : Prop where
  chain : Chain s.next s.pages l
  accounted : (s.view l).Accounted first

theorem next_update {d : PageData} :
    { s with words := Function.update s.words p d }.next = Function.update s.next p (d 0) := by
  funext q
  by_cases hqp : q = p
  · simp [next, hqp]
  · simp [next, hqp]

/-- `add_to_queue` puts a page in front. -/
theorem chain_addToQueue (h : Chain s.next s.pages l) (hne : p ≠ 0) (hp : p ∉ l) :
    Chain (s.addToQueue p).next (s.addToQueue p).pages (p :: l) := by
  have hnext : (s.addToQueue p).next = Function.update s.next p s.pages := by
    have hupdate := next_update (s := s) (p := p) (d := Function.update (s.words p) 0 s.pages)
    rwa [Function.update_self] at hupdate
  rw [hnext]
  exact h.push hne hp

/-- `kalloc_page` from a queue that is not empty. -/
theorem kallocPage_of_ne (h : s.pages ≠ 0) : s.kallocPage = some (s.pages, { s with
    pages := s.words s.pages 0
    words := Function.update s.words s.pages fun _ => 0
    ref := Function.update s.ref (pageIndex s.pages) 1
    allocated := s.allocated + 1 }) := by
  have hfetch : ∀ s : PoolState, s.pages ≠ 0 →
      s.fetchFromQueue = (s.pages, { s with pages := s.words s.pages 0 }) := fun s hs => if_pos hs
  rw [kallocPage, hfetch { s with allocated := s.allocated + 1 } h]
  exact if_neg h

/-- From an empty one it does not return. -/
theorem kallocPage_eq_none : s.kallocPage = none ↔ s.pages = 0 := by
  by_cases h : s.pages = 0
  · refine iff_of_true ?_ h
    have hfetch : ∀ s : PoolState, s.pages = 0 → s.fetchFromQueue = (s.pages, s) :=
      fun s hs => if_neg (not_not_intro hs)
    rw [kallocPage, hfetch { s with allocated := s.allocated + 1 } h]
    exact if_pos h
  · rw [kallocPage_of_ne h]
    exact iff_of_false (Option.some_ne_none _) h

/-- On the list it takes the first page. -/
theorem kallocPage_view (h : Chain s.next s.pages l) (hnodup : l.Nodup)
    (hk : s.kallocPage = some (p, t)) :
    ∃ l', l = p :: l' ∧ Chain t.next t.pages l' ∧ (s.view l).kallocPage = some (p, t.view l') := by
  have hne : s.pages ≠ 0 := fun h0 => by
    rw [kallocPage_eq_none.mpr h0] at hk
    cases hk
  obtain ⟨l', rfl, hrest⟩ := h.pop hne
  rw [kallocPage_of_ne hne] at hk
  cases hk
  refine ⟨l', rfl, ?_, rfl⟩
  have hchain := hrest.update (v := (0 : Addr)) (List.nodup_cons.mp hnodup).1
  rwa [← next_update (s := s) (p := s.pages) (d := fun _ => 0)] at hchain

/-- `kfree_page` does to the list what it does to the queue. -/
theorem kfreePage_view (h : Chain s.next s.pages l) (hne : p ≠ 0) (hp : p ∉ l) :
    ∃ l', Chain (s.kfreePage p).next (s.kfreePage p).pages l' ∧
      (s.view l).kfreePage p = (s.kfreePage p).view l' := by
  have hhead : l.headD 0 = s.pages := by
    cases l with
    | nil => exact h.symm
    | cons q l => exact h.1.symm
  by_cases hlast : Function.update s.ref (pageIndex p) (s.ref (pageIndex p) - 1) (pageIndex p) = 0 ∧
      p ≠ s.zero
  · have hqueue : s.kfreePage p = { s with
        ref := Function.update s.ref (pageIndex p) (s.ref (pageIndex p) - 1)
        allocated := s.allocated - 1 }.addToQueue p := if_pos hlast
    refine ⟨p :: l, ?_, ?_⟩
    · rw [hqueue]
      exact chain_addToQueue (s := { s with
        ref := Function.update s.ref (pageIndex p) (s.ref (pageIndex p) - 1)
        allocated := s.allocated - 1 }) h hne hp
    · rw [hqueue]
      refine (if_pos hlast).trans ?_
      rw [show (s.view l).free.headD 0 = s.pages from hhead]
      rfl
  · have hqueue : s.kfreePage p = { s with
        ref := Function.update s.ref (pageIndex p) (s.ref (pageIndex p) - 1) } := if_neg hlast
    refine ⟨l, ?_, ?_⟩
    · rw [hqueue]
      exact h
    · rw [hqueue]
      exact if_neg hlast

/-- The pages are put in front one after another. -/
theorem chain_foldl (ps : List Addr) (h : Chain s.next s.pages l) (hne : ∀ p ∈ ps, p ≠ 0)
    (hnodup : (ps.reverse ++ l).Nodup) :
    Chain (ps.foldl addToQueue s).next (ps.foldl addToQueue s).pages (ps.reverse ++ l) := by
  induction ps generalizing s l with
  | nil => exact h
  | cons p ps ih =>
    rw [List.reverse_cons, List.append_assoc, List.singleton_append] at hnodup ⊢
    have hp : p ∉ l := (List.nodup_cons.mp (List.nodup_append.mp hnodup).2.1).1
    exact ih (chain_addToQueue h (hne p List.mem_cons_self) hp)
      (fun q hq => hne q (List.mem_cons_of_mem p hq)) hnodup

theorem foldl_addToQueue (ps : List Addr) (s : PoolState) :
    (ps.foldl addToQueue s).ref = s.ref ∧ (ps.foldl addToQueue s).allocated = s.allocated ∧
      (ps.foldl addToQueue s).zero = s.zero := by
  induction ps generalizing s with
  | nil => exact ⟨rfl, rfl, rfl⟩
  | cons p ps ih => exact ih (s.addToQueue p)

theorem inv_init (h : (poolSystem first).init s) : ∃ l, s.Inv first l := by
  obtain ⟨words, rfl⟩ := h
  have hnodup : (usablePages first).reverse.Nodup := List.nodup_reverse.mpr nodup_usablePages
  have hne : ∀ p ∈ usablePages first, p ≠ 0 := fun p hp => (validPage_of_usable hp).ne_zero
  obtain ⟨href, hallocated, hzero⟩ := foldl_addToQueue (usablePages first)
    ⟨0, words, fun _ => 0, 0, 0⟩
  refine ⟨(usablePages first).reverse, ?_, hnodup, fun p hp => List.mem_reverse.mp hp,
    fun p hp _ => ?_, fun hz => ?_, ?_⟩
  · have hchain := chain_foldl (s := ⟨0, words, fun _ => 0, 0, 0⟩) (l := []) (usablePages first)
      rfl hne (by rwa [List.append_nil])
    rwa [List.append_nil] at hchain
  · refine iff_of_true (List.mem_reverse.mpr hp) ?_
    show (initPages first words).ref _ = 0
    rw [initPages, href]
  · have hnull : (initPages first words).zero = 0 := hzero
    exact hne 0 (List.mem_reverse.mp (hnull ▸ hz)) rfl
  · show (initPages first words).allocated + _ = _
    rw [initPages, hallocated]
    simp [view]

/-- **One call.** -/
theorem inv_step {c : PoolCall} (h : s.Inv first l) (hc : s.Allowed first c)
    (hs : s.step c = some t) : ∃ l', t.Inv first l' := by
  cases c with
  | kalloc =>
    obtain ⟨⟨p, u⟩, hk, rfl⟩ := Option.map_eq_some_iff.mp hs
    obtain ⟨l', -, hchain, hview⟩ := kallocPage_view h.chain h.accounted.nodup hk
    exact ⟨l', hchain, (PageMem.accounted_kalloc h.accounted hview).1⟩
  | zeroPage =>
    obtain ⟨⟨p, u⟩, hk, rfl⟩ := Option.map_eq_some_iff.mp hs
    obtain ⟨l', -, hchain, hview⟩ := kallocPage_view h.chain h.accounted.nodup hk
    exact ⟨l', hchain, (PageMem.accounted_kalloc h.accounted hview).2 hc.1⟩
  | ref p =>
    cases hs
    exact ⟨l, h.chain, PageMem.accounted_ref h.accounted hc.1 hc.2⟩
  | kfree p =>
    cases hs
    have hne := (validPage_of_usable hc.1).ne_zero
    obtain ⟨l', hchain, hview⟩ := kfreePage_view h.chain hne (h.accounted.notMem hc.1 hc.2)
    exact ⟨l', hchain, hview ▸ PageMem.accounted_kfree h.accounted hc.1 hc.2⟩
  | store p d =>
    cases hs
    have hnot := h.accounted.notMem hc.1 hc.2
    obtain ⟨hnodup, husable, hiff, hzero, hcount⟩ := h.accounted
    refine ⟨l, ?_, hnodup, husable, hiff, hzero, hcount⟩
    rw [next_update]
    exact h.chain.update hnot

theorem inv_of_reachable (h : (poolSystem first).Reachable (Allowed first) s) :
    ∃ l, s.Inv first l :=
  h.induction (I := fun s => ∃ l, s.Inv first l) (fun _ => inv_init) fun _ _ _ hi hc hs => by
    obtain ⟨l, hl⟩ := hi
    exact inv_step hl hc hs

end PoolState

/-- **The pages are accounted for.**  In every run the queue is a list of pages; a page other
than the zero page is on it once when nobody refers to it, and else not; the zero page is
never on it; the pages on it and those that are allocated are all the pages; and
`kalloc_page` takes a page of it, cleared, with the count 1. -/
theorem pages_accounted (first : ℕ) (s : PoolState)
    (h : (poolSystem first).Reachable (PoolState.Allowed first) s) :
    ∃ free : List Addr, Chain (fun p => s.words p 0) s.pages free ∧
      (∀ p ∈ usablePages first, p ≠ s.zero →
        free.count p = if s.ref (pageIndex p) = 0 then 1 else 0) ∧
      s.zero ∉ free ∧ (∀ p ∈ free, p ∈ usablePages first) ∧
      s.allocated + free.length = (usablePages first).length ∧
      (s.pages ≠ 0 → ∃ p t, s.kallocPage = some (p, t) ∧ p ∈ free ∧ (∀ i, t.words p i = 0) ∧
        t.ref (pageIndex p) = 1) := by
  obtain ⟨l, hchain, hacc⟩ := PoolState.inv_of_reachable h
  refine ⟨l, hchain, fun p hp hzero => ?_, hacc.zero, hacc.usable, hacc.count, fun hne => ?_⟩
  · have hiff := hacc.free_iff p hp hzero
    split
    · rename_i href
      exact List.count_eq_one_of_mem hacc.nodup (hiff.mpr href)
    · rename_i href
      exact List.count_eq_zero_of_not_mem fun hmem => href (hiff.mp hmem)
  · refine ⟨_, _, PoolState.kallocPage_of_ne hne, ?_, fun i => ?_, Function.update_self _ _ _⟩
    · obtain ⟨l', rfl, -⟩ := hchain.pop hne
      exact List.mem_cons_self
    · show Function.update s.words s.pages (fun _ => 0) s.pages i = 0
      rw [Function.update_self]

/-- A machine with three pages: the zero page is taken, another page is shared and released. -/
theorem pages_accounted_three : ∃ s : PoolState, s.allocated = 2 ∧ ∃ free : List Addr,
    free.length = 1 ∧ kernelPage 0x3efff ∉ free ∧ kernelPage 0x3effe ∉ free := by
  have hrun : ((poolSystem 0x3effd).exec (PoolState.Allowed 0x3effd)
      (PoolState.initPages 0x3effd fun _ _ => 0)
      [.zeroPage, .kalloc, .kalloc, .ref (kernelPage 0x3effe), .store (kernelPage 0x3effe) fun _ => 7,
        .kfree (kernelPage 0x3effd), .kfree (kernelPage 0x3effe)]).map (fun s =>
      (s.allocated, decide (s.zero = kernelPage 0x3efff),
        decide (s.ref (pageIndex (kernelPage 0x3effe)) = 1))) = some (2, true, true) := by
    decide
  obtain ⟨s, hs, heq⟩ := Option.map_eq_some_iff.mp hrun
  simp only [Prod.mk.injEq, decide_eq_true_eq] at heq
  obtain ⟨hallocated, hzero, href⟩ := heq
  obtain ⟨free, -, hcount, hnot, -, hlen, -⟩ :=
    pages_accounted 0x3effd s ⟨_, ⟨_, rfl⟩, System.leads_of_exec hs⟩
  refine ⟨s, hallocated, free, ?_, hzero ▸ hnot, fun hmem => ?_⟩
  · have hthree : (usablePages 0x3effd).length = 3 := by decide
    rw [hallocated, hthree] at hlen
    omega
  · have hone := hcount (kernelPage 0x3effe) (by decide) (by rw [hzero]; decide)
    rw [href, if_neg (by decide)] at hone
    exact List.count_eq_zero.mp hone hmem

end OsLab
