/-
The end of an address space (`free_sections` of `kernel/paging.c`, `free_pgdir` of
`kernel/pt.c`).

The pages of the sections of a directory are let go, then its tables, from the lowest to the
root.  The sections are those of the directory that is freed, but their pages are looked up in
the tables of the current process.

* `Freed` — the pages, with the calls of `kfree_page` and `kfree` so far;
* `PtState.freePgdir` — the functions of the source;
* `PtState.sectionUses` — how often the sections of a directory map a page;
* `freeTables_spec` — the three loops come to every table once;
* `freePgdir_calls_iff` — which calls the whole makes, and what is left of the pages then;
* `freePgdir_alone_iff` — the other directories, and the pointers that are left.
-/
import OsLab.Kernel.Sbrk

namespace OsLab

attribute [local instance] nPtePerTable_neZero

/-- The pages and tables, with a log of what has been released. -/
structure Freed where
  pts : PtState
  /-- the arguments of `kfree_page` -/
  calls : List Addr
  /-- the arguments of `kfree` -/
  blocks : List ℕ

/-- A section, with the block that it is in. -/
abbrev SectionNode := ℕ × HeapSection

/-- The end is in the last page of the addresses: `start < end` does not become false. -/
def HeapSection.Endless (c : HeapSection) : Prop := 2 ^ 64 - 4096 < c.end_.toNat

instance (c : HeapSection) : Decidable c.Endless := inferInstanceAs (Decidable (_ < _))

/-- How often the loop over the pages of a section runs, if it ends. -/
def HeapSection.rounds (c : HeapSection) : ℕ :=
  (c.end_.toNat - (pageBase c.begin).toNat + 4095) / 4096

namespace Freed

def kfreePage (f : Freed) (p : Addr) : Freed :=
  { f with pts := { f.pts with mem := f.pts.mem.kfreePage p }, calls := f.calls ++ [p] }

/-- The body of the loop of `free_sections`; `cur` is the directory of `thisproc()`. -/
def freePte (cur : ℕ) (f : Freed) (va : BitVec 64) : Freed :=
  match f.pts.getPte cur va false with
  | some (s, some pte) =>
    let e := s.mem.words pte.1 pte.2
    if e &&& pteValid ≠ 0 then
      let f := { f with pts := s }.kfreePage (p2k (pteAddress e))
      { f with pts := f.pts.writePte pte 0 }
    else { f with pts := s }
  | _ => f

/-- The loop over the pages of a section, with the number of pages left. -/
def freeRange (cur : ℕ) : ℕ → BitVec 64 → Freed → Freed
  | 0, _, f => f
  | n + 1, start, f => freeRange cur n (start + 4096) (f.freePte cur start)

/-- The loop over the sections; `none` when it does not end. -/
def freeRanges (cur : ℕ) : List SectionNode → Freed → Option Freed
  | [], f => some f
  | c :: rest, f =>
    if c.2.Endless then none
    else freeRanges cur rest (freeRange cur c.2.rounds (pageBase c.2.begin) f)

/-- `free_sections`; the list is left as it is. -/
def freeSections (cur : ℕ) (sections : List SectionNode) (f : Freed) : Option Freed :=
  (f.freeRanges cur sections).map fun f => { f with blocks := f.blocks ++ sections.map Prod.fst }

/-- The loop of `free_pgdir` over a table, with the loops in it.  The source writes it three
times, for `pde_1`, `pde_2` and `pde_3`. -/
def freeTables : ℕ → Addr → Freed → Freed
  | 0, _, f => f
  | n + 1, table, f => (List.finRange nPtePerTable).foldl (fun f i =>
      if f.pts.mem.words table i = 0 then f
      else
        let pde := p2k (pteAddress (f.pts.mem.words table i))
        (freeTables n pde f).kfreePage pde) f

end Freed

namespace PtState

/-- `free_pgdir` of the directory `d` -/
def freePgdir (s : PtState) (cur d : ℕ) (sections : List SectionNode) : Option Freed :=
  (Freed.freeSections cur sections ⟨s, [], []⟩).map fun f =>
    if f.pts.pt d = 0 then f
    else (Freed.freeTables 3 (f.pts.pt d) f).kfreePage (f.pts.pt d)

/-- `init_pgdir`, but for the sections. -/
def initPgdir (s : PtState) (d : ℕ) : Option PtState :=
  s.mem.kallocPage.map fun (p, m) => { mem := m, pt := Function.update s.pt d p }

/-- `*get_pte(d, va, true) = v` -/
def setPte (s : PtState) (d : ℕ) (va v : BitVec 64) : Option PtState :=
  match s.getPte d va true with
  | some (s, some pte) => some (s.writePte pte v)
  | _ => none

end PtState

/-- How a page table is built. -/
inductive PgdirCall
  | init
  | getPte (va : BitVec 64)
  | set (va v : BitVec 64)

namespace PtState

def pgdirCall (s : PtState) (d : ℕ) : PgdirCall → Option PtState
  | .init => s.initPgdir d
  | .getPte va => (s.getPte d va true).map (·.1)
  | .set va v => s.setPte d va v

/-- A root table is made once, and a valid entry maps a page that somebody has allocated, and
that is no table. -/
def DirAllowed (d : ℕ) (s : PtState) : PgdirCall → Prop
  | .init => s.pt d = 0
  | .getPte _ => True
  | .set _ v => ∀ p, mapped v = some p → s.Plain p ∧ p ∉ s.mem.free

/-- The pages, tables and entries of all directories are in order. -/
structure Settled (s : PtState) : Prop where
  tables : s.Tables
  /-- what an entry maps is in use, and no table -/
  data : ∀ e va p, mapped (s.entry e va) = some p → s.Plain p ∧ p ∉ s.mem.free
  free_ref : ∀ p ∈ s.mem.free, s.mem.ref (pageIndex p) = 0
  zero : s.mem.zero ∉ s.mem.free

/-- The page numbers that the loops of `free_sections` come to. -/
def sectionPages (sections : List SectionNode) : Finset ℕ :=
  (sections.flatMap fun c => (List.range c.2.rounds).map fun k =>
    vpn (pageBase c.2.begin + BitVec.ofNat 64 (4096 * k))).toFinset

/-- How many pages of the sections the directory `e` maps to `p`. -/
def sectionUses (s : PtState) (e : ℕ) (sections : List SectionNode) (p : Addr) : ℕ :=
  ((sectionPages sections).filter fun n => mapped (s.entry e (vaOf n)) = some p).card

end PtState

/-- The building of the page table of `d`, from a state in which it has none. -/
def dirSystem (d : ℕ) : System PtState PgdirCall where
  init s := s.Settled ∧ s.pt d = 0
  step s := s.pgdirCall d

/-! ### The loop over a section -/

namespace HeapSection

variable {c : HeapSection}

theorem page_toNat (c : HeapSection) (k : ℕ) :
    (pageBase c.begin + BitVec.ofNat 64 (4096 * k)).toNat =
      (c.begin.toNat / 4096 * 4096 + 4096 * k) % 2 ^ 64 := by
  rw [BitVec.toNat_add, BitVec.toNat_ofNat, pageBase_toNat, Nat.add_mod_mod]

/-- The loop runs as often as `start < end` is true. -/
theorem rounds_spec (h : ¬c.Endless) :
    (∀ k < c.rounds, pageBase c.begin + BitVec.ofNat 64 (4096 * k) < c.end_) ∧
      ¬pageBase c.begin + BitVec.ofNat 64 (4096 * c.rounds) < c.end_ := by
  have hend : c.end_.toNat ≤ 2 ^ 64 - 4096 := Nat.le_of_not_lt h
  have hbegin : c.begin.toNat < 2 ^ 64 := c.begin.isLt
  simp only [BitVec.lt_def, page_toNat, rounds, pageBase_toNat]
  constructor
  · intro k hk
    omega
  · omega

/-- And it does not end when the section reaches into the last page. -/
theorem endless_spec (h : c.Endless) (k : ℕ) :
    pageBase c.begin + BitVec.ofNat 64 (4096 * k) < c.end_ := by
  have hend : 2 ^ 64 - 4096 < c.end_.toNat := h
  rw [BitVec.lt_def, page_toNat]
  omega

end HeapSection

/-- An entry maps a page that an address in an entry can name. -/
theorem validPage_of_mapped {e : BitVec 64} {p : Addr} (h : mapped e = some p) : ValidPage p := by
  unfold mapped at h
  split at h
  · rw [← Option.some.inj h, ValidPage, k2p, p2k, BitVec.add_sub_cancel, pteAddress, pteAddress,
      BitVec.and_assoc, BitVec.and_self]
  · cases h

/-! ### What the calls do to the counts -/

namespace PageMem

/-- Whether `kfree_page` puts the page on the list. -/
def Lasts (m : PageMem) (p : Addr) : Prop := m.ref (pageIndex p) = 1 ∧ p ≠ m.zero

instance (m : PageMem) (p : Addr) : Decidable (m.Lasts p) := inferInstanceAs (Decidable (_ ∧ _))

theorem kfreePage_eq (m : PageMem) (p : Addr) : m.kfreePage p =
    if m.Lasts p then
      { m with
        ref := Function.update m.ref (pageIndex p) (m.ref (pageIndex p) - 1)
        free := p :: m.free
        allocated := m.allocated - 1
        words := Function.update m.words p (Function.update (m.words p) 0 (m.free.headD 0)) }
    else { m with ref := Function.update m.ref (pageIndex p) (m.ref (pageIndex p) - 1) } := by
  have hself : Function.update m.ref (pageIndex p) (m.ref (pageIndex p) - 1) (pageIndex p) = 0 ↔
      m.ref (pageIndex p) = 1 := by
    rw [Function.update_self]
    omega
  unfold kfreePage Lasts
  dsimp only
  simp only [hself]
  rfl

@[simp] theorem kfreePage_ref (m : PageMem) (p : Addr) : (m.kfreePage p).ref =
    Function.update m.ref (pageIndex p) (m.ref (pageIndex p) - 1) := by
  rw [kfreePage_eq]
  split <;> rfl

@[simp] theorem kfreePage_zero (m : PageMem) (p : Addr) : (m.kfreePage p).zero = m.zero := by
  rw [kfreePage_eq]
  split <;> rfl

theorem kfreePage_free (m : PageMem) (p : Addr) :
    (m.kfreePage p).free = if m.Lasts p then p :: m.free else m.free := by
  rw [kfreePage_eq]
  split <;> rfl

theorem kfreePage_allocated (m : PageMem) (p : Addr) :
    (m.kfreePage p).allocated = if m.Lasts p then m.allocated - 1 else m.allocated := by
  rw [kfreePage_eq]
  split <;> rfl

/-- The words of other pages stay. -/
theorem kfreePage_data (m : PageMem) {p q : Addr} (h : q ≠ p) :
    (m.kfreePage p).words q = m.words q := by
  rw [kfreePage_eq]
  split
  · exact Function.update_of_ne h _ _
  · rfl

end PageMem

namespace Freed

variable {m : PageMem} {s : PtState} {f g : Freed} {p : Addr} {cur d : ℕ} {va : BitVec 64}

/-- The counts and the free list after the calls, which started from `m`. -/
structure Drops (m : PageMem) (f : Freed) : Prop where
  valid : ∀ p ∈ f.calls, ValidPage p
  ref : ∀ p, ValidPage p → f.pts.mem.ref (pageIndex p) = m.ref (pageIndex p) - f.calls.count p
  zero : f.pts.mem.zero = m.zero
  /-- a page is put on the list when its last reference goes -/
  free : ∀ p, ValidPage p → (p ∈ f.pts.mem.free ↔ p ∈ m.free ∨
    (p ≠ m.zero ∧ 0 < m.ref (pageIndex p) ∧ m.ref (pageIndex p) ≤ f.calls.count p))
  pages : ∀ p ∈ f.pts.mem.free, ValidPage p
  nodup : f.pts.mem.free.Nodup
  total : f.pts.mem.allocated + f.pts.mem.free.length = m.allocated + m.free.length

theorem Drops.init (hpages : ∀ p ∈ s.mem.free, ValidPage p) (hnodup : s.mem.free.Nodup) :
    Drops s.mem ⟨s, [], []⟩ := by
  refine ⟨nofun, fun p _ => ?_, rfl, fun p _ => ?_, hpages, hnodup, rfl⟩
  · exact (Int.sub_zero _).symm
  · refine (or_iff_left ?_).symm
    rintro ⟨-, hpos, hle⟩
    have hzero : s.mem.ref (pageIndex p) ≤ 0 := hle
    omega

/-- A free page has no reference left. -/
theorem Drops.free_ref (h : Drops m f) (hm : ∀ p ∈ m.free, m.ref (pageIndex p) = 0)
    (hp : p ∈ f.pts.mem.free) : f.pts.mem.ref (pageIndex p) ≤ 0 := by
  have hvalid := h.pages p hp
  rw [h.ref p hvalid]
  rcases (h.free p hvalid).mp hp with hp | ⟨-, -, hle⟩
  · rw [hm p hp]
    omega
  · omega

theorem Drops.kfreePage (h : Drops m f) (hm : ∀ p ∈ m.free, m.ref (pageIndex p) = 0)
    (hp : ValidPage p) : Drops m (f.kfreePage p) := by
  have hcount : ∀ q, (f.calls ++ [p]).count q = f.calls.count q + if p = q then 1 else 0 := by
    intro q
    rw [List.count_append, List.count_singleton]
    simp only [beq_iff_eq]
  have href : f.pts.mem.ref (pageIndex p) = m.ref (pageIndex p) - f.calls.count p := h.ref p hp
  have hlasts : f.pts.mem.Lasts p → p ∉ f.pts.mem.free := by
    intro hlast hin
    have hle := h.free_ref hm hin
    rw [hlast.1] at hle
    omega
  have hlist : (f.kfreePage p).pts.mem.free =
      if f.pts.mem.Lasts p then p :: f.pts.mem.free else f.pts.mem.free :=
    PageMem.kfreePage_free _ _
  constructor
  · intro q hq
    rcases List.mem_append.mp hq with hq | hq
    · exact h.valid q hq
    · rwa [List.mem_singleton.mp hq]
  · intro q hq
    show (f.pts.mem.kfreePage p).ref _ = _ - ((f.calls ++ [p]).count q : ℤ)
    rw [hcount, PageMem.kfreePage_ref]
    by_cases hqp : p = q
    · subst hqp
      rw [Function.update_self, href, if_pos rfl]
      push_cast
      omega
    · rw [Function.update_of_ne fun heq => hqp (hq.index_inj hp heq).symm, h.ref q hq, if_neg hqp]
      rfl
  · exact (PageMem.kfreePage_zero _ _).trans h.zero
  · intro q hq
    show _ ↔ _ ∨ (_ ∧ _ ∧ _ ≤ ((f.calls ++ [p]).count q : ℤ))
    rw [hlist, hcount]
    by_cases hqp : p = q
    · subst hqp
      rw [if_pos rfl]
      push_cast
      have hfree := h.free p hp
      by_cases hlast : f.pts.mem.Lasts p
      · -- the last reference goes
        rw [if_pos hlast]
        refine iff_of_true List.mem_cons_self (.inr ⟨h.zero ▸ hlast.2, ?_⟩)
        have hone := hlast.1
        omega
      · rw [if_neg hlast, hfree]
        refine or_congr_right (and_congr_right fun hzero => and_congr_right fun _ => ?_)
        have hnot : ¬f.pts.mem.ref (pageIndex p) = 1 := fun h1 => hlast ⟨h1, h.zero ▸ hzero⟩
        omega
    · rw [if_neg hqp, Nat.add_zero, ← h.free q hq]
      split
      · rw [List.mem_cons]
        exact or_iff_right fun heq => hqp heq.symm
      · rfl
  · intro q hq
    rw [hlist] at hq
    split at hq
    · rcases List.mem_cons.mp hq with rfl | hq
      · exact hp
      · exact h.pages q hq
    · exact h.pages q hq
  · rw [hlist]
    split
    · exact List.nodup_cons.mpr ⟨hlasts ‹_›, h.nodup⟩
    · exact h.nodup
  · have hallocated : (f.kfreePage p).pts.mem.allocated =
        if f.pts.mem.Lasts p then f.pts.mem.allocated - 1 else f.pts.mem.allocated :=
      PageMem.kfreePage_allocated _ _
    have htotal := h.total
    rw [hlist, hallocated]
    split
    · rw [List.length_cons]
      push_cast
      omega
    · exact htotal

theorem Drops.writePte (h : Drops m f) (pte : PtePtr) (v : BitVec 64) :
    Drops m { f with pts := f.pts.writePte pte v } := by
  obtain ⟨hvalid, href, hzero, hfree, hpages, hnodup, htotal⟩ := h
  exact ⟨hvalid, href, hzero, hfree, hpages, hnodup, htotal⟩

/-! ### The sections -/

/-- After the pages with the numbers in `seen`. -/
structure Unmapped (s : PtState) (cur : ℕ) (seen : Finset ℕ) (f : Freed) : Prop where
  drops : Drops s.mem f
  tables : f.pts.Tables
  node : ∀ e q, f.pts.node e q = s.node e q
  entry : ∀ e va, f.pts.entry e va =
    if e = cur ∧ vpn va ∈ seen ∧ mapped (s.entry cur va) ≠ none then 0 else s.entry e va
  calls : ∀ p, f.calls.count p =
    (seen.filter fun n => mapped (s.entry cur (vaOf n)) = some p).card
  blocks : f.blocks = []

variable {seen : Finset ℕ}

theorem Unmapped.init (hs : s.Settled) : Unmapped s cur ∅ ⟨s, [], []⟩ := by
  refine ⟨.init hs.tables.pages hs.tables.nodup, hs.tables, fun _ _ => rfl, fun e va => ?_,
    fun _ => rfl, rfl⟩
  rw [if_neg]
  rintro ⟨-, hmem, -⟩
  exact Finset.notMem_empty _ hmem

/-- A page that no entry maps is passed by. -/
theorem Unmapped.skip (hs : s.Settled) (h : Unmapped s cur seen f)
    (hnone : mapped (f.pts.entry cur va) = none) : Unmapped s cur (insert (vpn va) seen) f := by
  by_cases hseen : vpn va ∈ seen
  · rwa [Finset.insert_eq_self.mpr hseen]
  · have hentry := h.entry cur va
    rw [if_neg fun hand => hseen hand.2.1] at hentry
    rw [hentry] at hnone
    refine ⟨h.drops, h.tables, h.node, fun e va' => ?_, fun p => ?_, h.blocks⟩
    · rw [h.entry]
      refine if_congr (and_congr_right fun _ => and_congr_left fun hne => ?_) rfl rfl
      rw [Finset.mem_insert]
      refine (or_iff_right fun heq => hne ?_).symm
      rw [PtState.entry_congr hs.tables heq, hnone]
    · rw [h.calls, Finset.filter_insert, if_neg]
      rw [PtState.entry_congr hs.tables (vpn_vaOf (vpn_lt va)), hnone]
      exact nofun

/-- `kfree_page` of a page that is no table. -/
theorem Drops.tables (h : Drops m (f.kfreePage p)) (hf : f.pts.Tables) (hp : f.pts.Plain p) :
    (f.kfreePage p).pts.Tables ∧ ∀ e q, (f.kfreePage p).pts.node e q = f.pts.node e q := by
  have hnode : ∀ e q, (f.kfreePage p).pts.node e q = f.pts.node e q :=
    PtState.node_of_words rfl fun e q _ => PageMem.kfreePage_data _ (hp e q)
  have hfree : ∀ q, q ≠ p → q ∈ (f.kfreePage p).pts.mem.free → q ∈ f.pts.mem.free := by
    intro q hq hin
    have hlist : (f.kfreePage p).pts.mem.free =
        if f.pts.mem.Lasts p then p :: f.pts.mem.free else f.pts.mem.free :=
      PageMem.kfreePage_free _ _
    rw [hlist] at hin
    split at hin
    · exact (List.mem_cons.mp hin).resolve_left hq
    · exact hin
  refine ⟨⟨fun e q e' q' hne heq => ?_, fun e q hne hin => ?_, fun e q hne => ?_, h.pages,
    h.nodup⟩, hnode⟩
  · have hne' : (f.kfreePage p).pts.node e q ≠ 0 := hne
    have heq' : (f.kfreePage p).pts.node e q = (f.kfreePage p).pts.node e' q' := heq
    rw [hnode] at hne' heq'
    rw [hnode] at heq'
    exact hf.separate e q e' q' hne' heq'
  · rw [hnode] at hne hin
    exact hf.apart e q hne (hfree _ (hp e q) hin)
  · rw [hnode] at hne ⊢
    exact hf.valid e q hne

/-- A page that an entry maps is released, and the entry is cleared. -/
theorem Unmapped.release (hs : s.Settled) (h : Unmapped s cur seen f)
    (hmapped : mapped (f.pts.entry cur va) = some p) :
    Unmapped s cur (insert (vpn va) seen) { f.kfreePage p with
      pts := (f.kfreePage p).pts.writePte (f.pts.node cur (tablePath va), pdIndex va 12) 0 } := by
  -- the entry is as in the beginning, and the page has not been seen
  have hentry : f.pts.entry cur va = s.entry cur va ∧ vpn va ∉ seen := by
    have hcases := h.entry cur va
    split at hcases
    · rw [hcases, mapped_zero] at hmapped
      cases hmapped
    · rename_i hnot
      refine ⟨hcases, fun hseen => hnot ⟨rfl, hseen, fun hnone => ?_⟩⟩
      rw [hcases, hnone] at hmapped
      cases hmapped
  obtain ⟨hsame, hseen⟩ := hentry
  have hmap : mapped (s.entry cur va) = some p := hsame ▸ hmapped
  have hvalid : ValidPage p := validPage_of_mapped hmap
  have hplain : f.pts.Plain p := by
    intro e q
    rw [h.node]
    exact (hs.data cur va p hmap).1 e q
  have hdrops := h.drops.kfreePage hs.free_ref hvalid
  obtain ⟨htables, hnode⟩ := hdrops.tables h.tables hplain
  have hne : (f.kfreePage p).pts.node cur (tablePath va) ≠ 0 := by
    rw [hnode]
    intro hzero
    rw [PtState.entry_eq h.tables, Radix.slot, if_pos hzero, mapped_zero] at hmapped
    cases hmapped
  have hwrite : ∀ e va', (f.kfreePage p).pts.entry e va' = f.pts.entry e va' :=
    PtState.entry_of_words h.tables htables rfl fun e q _ => PageMem.kfreePage_data _ (hplain e q)
  rw [← hnode cur (tablePath va)]
  refine ⟨hdrops.writePte _ _, htables.writePte hne rfl 0, fun e q => ?_, fun e va' => ?_,
    fun q => ?_, h.blocks⟩
  · rw [PtState.writePte_node htables hne rfl, hnode, h.node]
  · show (PtState.writePte _ _ 0).entry e va' = _
    rw [PtState.writePte_entry htables hne, hwrite, h.entry]
    by_cases hpage : e = cur ∧ vpn va' = vpn va
    · obtain ⟨rfl, hvpn⟩ := hpage
      rw [if_pos ⟨rfl, hvpn⟩, if_pos]
      refine ⟨rfl, Finset.mem_insert.mpr (.inl hvpn), ?_⟩
      rw [PtState.entry_congr hs.tables hvpn, hmap]
      exact Option.some_ne_none p
    · rw [if_neg hpage]
      refine if_congr (and_congr_right fun he => and_congr_left fun _ => ?_) rfl rfl
      rw [Finset.mem_insert]
      exact (or_iff_right fun hvpn => hpage ⟨he, hvpn⟩).symm
  · show (f.calls ++ [p]).count q = _
    rw [List.count_append, List.count_singleton, h.calls, Finset.filter_insert,
      PtState.entry_congr hs.tables (vpn_vaOf (vpn_lt va)), hmap]
    by_cases hqp : p = q
    · subst hqp
      rw [if_pos rfl, if_pos (beq_self_eq_true p), Finset.card_insert_of_notMem]
      exact fun hin => hseen (Finset.mem_filter.mp hin).1
    · rw [if_neg fun heq => hqp (Option.some.inj heq), if_neg fun heq => hqp (eq_of_beq heq)]
      rfl

/-- The body of the loop. -/
theorem Unmapped.freePte (hs : s.Settled) (h : Unmapped s cur seen f) (va : BitVec 64) :
    Unmapped s cur (insert (vpn va) seen) (f.freePte cur va) := by
  obtain ⟨o, ho⟩ := PtState.getPte_false f.pts cur va
  have hspec := (PtState.getPte_spec h.tables ho).2.2.1
  unfold Freed.freePte
  rw [ho, hspec]
  by_cases hnode : f.pts.node cur (tablePath va) = 0
  · rw [if_pos hnode]
    refine h.skip hs ?_
    rw [PtState.entry_eq h.tables, Radix.slot, if_pos hnode]
    exact mapped_zero
  · rw [if_neg hnode]
    have hentry : f.pts.mem.words (f.pts.node cur (tablePath va)) (pdIndex va 12) =
        f.pts.entry cur va := by
      rw [PtState.entry_eq h.tables]
      exact (if_neg hnode).symm
    dsimp only
    rw [hentry]
    by_cases hvalid : f.pts.entry cur va &&& pteValid ≠ 0
    · rw [if_pos hvalid]
      exact h.release hs (if_pos hvalid)
    · rw [if_neg hvalid]
      exact h.skip hs (if_neg hvalid)

/-- The pages of the rounds of a loop. -/
def roundPages (start : BitVec 64) (n : ℕ) : List ℕ :=
  (List.range n).map fun k => vpn (start + BitVec.ofNat 64 (4096 * k))

theorem roundPages_succ (start : BitVec 64) (n : ℕ) :
    roundPages start (n + 1) = vpn start :: roundPages (start + 4096) n := by
  unfold roundPages
  rw [List.range_succ_eq_map, List.map_cons, List.map_map]
  have hfirst : start + BitVec.ofNat 64 (4096 * 0) = start := BitVec.add_zero start
  have hnext : ∀ k : ℕ, start + BitVec.ofNat 64 (4096 * (k + 1)) =
      start + 4096 + BitVec.ofNat 64 (4096 * k) := by
    intro k
    have hsum : BitVec.ofNat 64 (4096 * (k + 1)) = 4096#64 + BitVec.ofNat 64 (4096 * k) := by
      refine BitVec.eq_of_toNat_eq ?_
      rw [BitVec.toNat_add, BitVec.toNat_ofNat, BitVec.toNat_ofNat, BitVec.toNat_ofNat]
      omega
    rw [hsum, ← BitVec.add_assoc]
    rfl
  rw [hfirst]
  exact congrArg _ (List.map_congr_left fun k _ => congrArg vpn (hnext k))

theorem Unmapped.freeRange (hs : s.Settled) : ∀ (n : ℕ) (start : BitVec 64) {seen : Finset ℕ}
    {f : Freed}, Unmapped s cur seen f →
    Unmapped s cur (seen ∪ (roundPages start n).toFinset) (Freed.freeRange cur n start f)
  | 0, start, seen, f => by
    intro h
    rwa [show (roundPages start 0).toFinset = ∅ from rfl, Finset.union_empty]
  | n + 1, start, seen, f => by
    intro h
    have hrest := Unmapped.freeRange hs n (start + 4096) (h.freePte hs start)
    rwa [roundPages_succ, List.toFinset_cons, Finset.union_insert, ← Finset.insert_union]

theorem Unmapped.freeRanges (hs : s.Settled) : ∀ (sections : List SectionNode) {seen : Finset ℕ}
    {f : Freed}, Unmapped s cur seen f → (∀ c ∈ sections, ¬c.2.Endless) →
    ∃ g, f.freeRanges cur sections = some g ∧
      Unmapped s cur (seen ∪ PtState.sectionPages sections) g
  | [], seen, f => by
    intro h _
    exact ⟨f, rfl, by rwa [show PtState.sectionPages [] = ∅ from rfl, Finset.union_empty]⟩
  | c :: rest, seen, f => by
    intro h hends
    have hfirst := h.freeRange hs c.2.rounds (pageBase c.2.begin)
    obtain ⟨g, hg, hrest⟩ := Unmapped.freeRanges hs rest hfirst fun c' hc' =>
      hends c' (List.mem_cons_of_mem c hc')
    refine ⟨g, ?_, ?_⟩
    · rw [Freed.freeRanges, if_neg (hends c List.mem_cons_self)]
      exact hg
    · rwa [PtState.sectionPages, List.flatMap_cons, List.toFinset_append, ← Finset.union_assoc]

/-- A section in the last page of the addresses keeps the loop going. -/
theorem freeRanges_none : ∀ (sections : List SectionNode) (f : Freed),
    (∃ c ∈ sections, c.2.Endless) → f.freeRanges cur sections = none
  | c :: rest, f => by
    rintro ⟨c', hc', hendless⟩
    unfold Freed.freeRanges
    split
    · rfl
    · rename_i hends
      rcases List.mem_cons.mp hc' with rfl | hrest
      · exact (hends hendless).elim
      · exact freeRanges_none rest _ ⟨c', hrest, hendless⟩
  | [], _ => by
    rintro ⟨c', hc', -⟩
    exact (List.not_mem_nil hc').elim

/-! ### The tables -/

/-- All the releases of a list. -/
def releaseAll (f : Freed) (ps : List Addr) : Freed := ps.foldl Freed.kfreePage f

theorem releaseAll_calls (ps : List Addr) (f : Freed) :
    (f.releaseAll ps).calls = f.calls ++ ps ∧ (f.releaseAll ps).blocks = f.blocks ∧
      (f.releaseAll ps).pts.pt = f.pts.pt := by
  induction ps generalizing f with
  | nil => exact ⟨(List.append_nil _).symm, rfl, rfl⟩
  | cons p ps ih =>
    obtain ⟨hcalls, hblocks, hpt⟩ := ih (f.kfreePage p)
    refine ⟨hcalls.trans ?_, hblocks, hpt⟩
    exact (List.append_cons f.calls p ps).symm

theorem releaseAll_blocks (bs : List ℕ) (ps : List Addr) (f : Freed) :
    { f with blocks := bs }.releaseAll ps = { f.releaseAll ps with blocks := bs } := by
  induction ps generalizing f with
  | nil => rfl
  | cons p ps ih => exact ih (f.kfreePage p)

theorem releaseAll_append (ps qs : List Addr) (f : Freed) :
    f.releaseAll (ps ++ qs) = (f.releaseAll ps).releaseAll qs := List.foldl_append

theorem releaseAll_words {q : Addr} (ps : List Addr) (f : Freed) (hq : q ∉ ps) :
    (f.releaseAll ps).pts.mem.words q = f.pts.mem.words q := by
  induction ps generalizing f with
  | nil => rfl
  | cons p ps ih =>
    have hne : q ≠ p := fun heq => hq (heq ▸ List.mem_cons_self)
    exact (ih (f.kfreePage p) fun hin => hq (List.mem_cons_of_mem p hin)).trans
      (PageMem.kfreePage_data _ hne)

theorem Drops.releaseAll (hm : ∀ p ∈ m.free, m.ref (pageIndex p) = 0) (ps : List Addr)
    (h : Drops m f) (hps : ∀ p ∈ ps, ValidPage p) : Drops m (f.releaseAll ps) := by
  induction ps generalizing f with
  | nil => exact h
  | cons p ps ih =>
    exact ih (h.kfreePage hm (hps p List.mem_cons_self)) fun q hq =>
      hps q (List.mem_cons_of_mem p hq)

/-- The tables that are at most `n` links below a path. -/
abbrev tablesBelow (s : PtState) (d n : ℕ) (r : List PtIndex) : List Addr :=
  tableRadix.below s.forest d (List.finRange nPtePerTable) n r

/-- The words of the tables along and below a path are as in `s`. -/
def Keeps (s : PtState) (d : ℕ) (r : List PtIndex) (f : Freed) : Prop :=
  ∀ q, s.node d (q ++ r) ≠ 0 → f.pts.mem.words (s.node d (q ++ r)) = s.mem.words (s.node d (q ++ r))

/-- Other pages are released. -/
theorem Keeps.releaseAll {r : List PtIndex} {ps : List Addr} (h : Keeps s d r f)
    (hps : ∀ q, s.node d (q ++ r) ≠ 0 → s.node d (q ++ r) ∉ ps) :
    Keeps s d r (f.releaseAll ps) :=
  fun q hq => (releaseAll_words ps f (hps q hq)).trans (h q hq)

/-- The loops over a table come to all tables below it, each after those below it. -/
theorem freeTables_spec (hsep : tableRadix.Separate s.forest) : ∀ (n : ℕ) (r : List PtIndex)
    (f : Freed), r.length + n ≤ 3 → s.node d r ≠ 0 → Keeps s d r f →
    freeTables n (s.node d r) f = f.releaseAll (tablesBelow s d n r)
  | 0, _, _ => fun _ _ _ => rfl
  | n + 1, r, f => by
    intro hlen hr hkeeps
    have hcons : ∀ i, s.node d (i :: r) = tableRadix.child (s.mem.words (s.node d r) i) :=
      fun i => Radix.node_cons hr (show r.length < 3 by omega)
    have hall : ∀ i : PtIndex, i ∈ List.finRange nPtePerTable := List.mem_finRange
    -- the words of the table, and of the branches that are still to come, stay
    have hloop : ∀ (is : List PtIndex), is.Nodup → ∀ f : Freed,
        f.pts.mem.words (s.node d r) = s.mem.words (s.node d r) →
        (∀ i ∈ is, Keeps s d (i :: r) f) →
        is.foldl (fun f i =>
          if f.pts.mem.words (s.node d r) i = 0 then f
          else
            let pde := p2k (pteAddress (f.pts.mem.words (s.node d r) i))
            (freeTables n pde f).kfreePage pde) f =
          f.releaseAll (is.flatMap fun i => if s.node d (i :: r) = 0 then []
            else tablesBelow s d n (i :: r) ++ [s.node d (i :: r)]) := by
      intro is
      induction is with
      | nil => exact fun _ _ _ _ => rfl
      | cons i is ih =>
        intro hnodup f hword hkeeps
        obtain ⟨hi, hnodup⟩ := List.nodup_cons.mp hnodup
        rw [List.foldl_cons, List.flatMap_cons, releaseAll_append]
        by_cases hzero : s.mem.words (s.node d r) i = 0
        · have hnone : s.node d (i :: r) = 0 := by rw [hcons, hzero]; rfl
          rw [if_pos hnone, if_pos (by rw [hword, hzero])]
          exact ih hnodup f hword fun j hj => hkeeps j (List.mem_cons_of_mem i hj)
        · have hnode : s.node d (i :: r) = p2k (pteAddress (s.mem.words (s.node d r) i)) :=
            (hcons i).trans (child_of_ne hzero)
          have hne : s.node d (i :: r) ≠ 0 := hnode ▸ p2k_pteAddress_ne _
          have hbranch : (freeTables n (s.node d (i :: r)) f).kfreePage (s.node d (i :: r)) =
              f.releaseAll (tablesBelow s d n (i :: r) ++ [s.node d (i :: r)]) := by
            rw [freeTables_spec hsep n (i :: r) f (by rw [List.length_cons]; omega) hne
              (hkeeps i List.mem_cons_self), releaseAll_append]
            rfl
          rw [if_neg hne, if_neg (by rw [hword]; exact hzero), hword]
          dsimp only
          rw [← hnode, hbranch]
          refine ih hnodup _ ?_ fun j hj => ?_
          · -- the table is in none of its branches
            rw [releaseAll_words _ _ fun hin => ?_, hword]
            obtain ⟨q, hq, hq0⟩ := Radix.mem_branch hall hin hne
            obtain ⟨-, hpath⟩ := hsep _ _ _ _ hr hq.symm
            have hlength := congrArg List.length hpath
            rw [List.length_append, List.length_cons] at hlength
            omega
          · refine (hkeeps j (List.mem_cons_of_mem i hj)).releaseAll fun q hq hin => ?_
            obtain ⟨q', hq', -⟩ := Radix.mem_branch hall hin hne
            have hji : j ≠ i := by
              rintro rfl
              exact hi hj
            exact hsep.branch_ne hji hq hq'.symm
    exact hloop _ (List.nodup_finRange _) f (hkeeps [] hr) fun i _ q hq => by
      have hpath : q ++ i :: r = (q ++ [i]) ++ r := by
        rw [List.append_assoc, List.singleton_append]
      rw [hpath] at hq ⊢
      exact hkeeps (q ++ [i]) hq

/-- The tables of a directory in the order in which they are released. -/
def allTables (s : PtState) (d : ℕ) : List Addr :=
  if s.pt d = 0 then [] else tablesBelow s d 3 [] ++ [s.pt d]

theorem mem_allTables : p ∈ allTables s d ↔ p ≠ 0 ∧ ∃ r, s.node d r = p := by
  have hall : ∀ i : PtIndex, i ∈ List.finRange nPtePerTable := List.mem_finRange
  unfold allTables
  split
  · rename_i hroot
    refine iff_of_false List.not_mem_nil ?_
    rintro ⟨hp, r, rfl⟩
    have hzero := Radix.node_append_of_zero (show s.node d [] = 0 from hroot) r
    rw [List.append_nil] at hzero
    exact hp hzero
  · rename_i hroot
    rw [List.mem_append, List.mem_singleton, Radix.mem_below hall]
    constructor
    · rintro (⟨q, -, -, hq, hp⟩ | rfl)
      · exact ⟨hp, q ++ [], hq⟩
      · exact ⟨hroot, [], rfl⟩
    · rintro ⟨hp, r, rfl⟩
      by_cases hr : r = []
      · subst hr
        exact .inr rfl
      · refine .inl ⟨r, hr, Radix.length_le_of_ne hp, ?_, hp⟩
        rw [List.append_nil]

theorem nodup_allTables (hsep : tableRadix.Separate s.forest) : (allTables s d).Nodup := by
  have hall : ∀ i : PtIndex, i ∈ List.finRange nPtePerTable := List.mem_finRange
  unfold allTables
  split
  · exact List.nodup_nil
  · rename_i hroot
    refine List.nodup_append.mpr ⟨Radix.nodup_below hsep hall (List.nodup_finRange _) 3 [],
      List.nodup_singleton _, fun p hp p' hp' heq => ?_⟩
    obtain ⟨q, hq, -, hnode, -⟩ := (Radix.mem_below hall 3 []).mp hp
    obtain rfl := List.mem_singleton.mp hp'
    rw [List.append_nil] at hnode
    obtain ⟨-, hpath⟩ := hsep d [] d q hroot (heq.symm.trans hnode.symm)
    exact hq hpath.symm

/-- The directories without `d`. -/
def without (s : PtState) (d : ℕ) : PtState := { s with pt := Function.update s.pt d 0 }

theorem without_node (s : PtState) (d e : ℕ) (q : List PtIndex) :
    (without s d).node e q = if e = d then 0 else s.node e q :=
  Radix.node_forget s.forest d e q

/-- The entries of a directory do not depend on the roots of the others. -/
theorem without_entry {e : ℕ} (he : e ≠ d) (va : BitVec 64) :
    (without s d).entry e va = s.entry e va := by
  have hpt : (without s d).pt e = s.pt e := Function.update_of_ne he _ _
  obtain ⟨p, hp⟩ := PtState.walk_false s.mem [pdIndex va 39, pdIndex va 30, pdIndex va 21] (s.pt e)
  have hmem : (without s d).mem = s.mem := rfl
  unfold PtState.entry PtState.getPte
  rw [hpt]
  by_cases hroot : s.pt e = 0
  · simp only [hroot, if_true, if_false, Bool.false_eq_true]
  · simp only [hroot, if_false, hmem, hp]
    by_cases hzero : p = 0
    · simp only [hzero, if_true]
    · simp only [hzero, if_false]

/-- What `free_pgdir` does when it comes back. -/
structure Ended (s : PtState) (cur d : ℕ) (sections : List SectionNode) (f : Freed) : Prop where
  drops : Drops s.mem f
  pt : f.pts.pt = s.pt
  blocks : f.blocks = sections.map Prod.fst
  tables : ∀ r, s.node d r ≠ 0 → f.calls.count (s.node d r) = 1
  others : ∀ p, (∀ r, s.node d r ≠ p) → f.calls.count p = s.sectionUses cur sections p
  /-- the other directories are in order, but for the entries of the current process -/
  rest : (without f.pts d).Tables
  entry : ∀ e va, e ≠ d → f.pts.entry e va =
    if e = cur ∧ vpn va ∈ PtState.sectionPages sections ∧ mapped (s.entry cur va) ≠ none then 0
    else s.entry e va

theorem count_allTables (hsep : tableRadix.Separate s.forest) (p : Addr) :
    (∀ r, s.node d r ≠ 0 → (allTables s d).count (s.node d r) = 1) ∧
      ((∀ r, s.node d r ≠ p) → (allTables s d).count p = 0) := by
  refine ⟨fun r hr => ?_, fun hp => ?_⟩
  · exact List.count_eq_one_of_mem (nodup_allTables hsep) (mem_allTables.mpr ⟨hr, r, rfl⟩)
  · refine List.count_eq_zero_of_not_mem fun hin => ?_
    obtain ⟨-, r, hr⟩ := mem_allTables.mp hin
    exact hp r hr

/-- The tables are released after the pages of the sections. -/
theorem Unmapped.ended (hs : s.Settled) {sections : List SectionNode}
    (h : Unmapped s cur (PtState.sectionPages sections) f) :
    Ended s cur d sections
      { f.releaseAll (allTables f.pts d) with blocks := f.blocks ++ sections.map Prod.fst } := by
  obtain ⟨hcalls, hblocks, hpt⟩ := releaseAll_calls (allTables f.pts d) f
  have hsep := h.tables.separate
  have hmem : ∀ p, p ∈ allTables f.pts d ↔ p ≠ 0 ∧ ∃ r, s.node d r = p := by
    intro p
    rw [mem_allTables]
    simp only [h.node]
  have hdrops : Drops s.mem (f.releaseAll (allTables f.pts d)) := by
    refine h.drops.releaseAll hs.free_ref _ fun p hp => ?_
    obtain ⟨hne, r, rfl⟩ := (hmem p).mp hp
    exact hs.tables.valid d r hne
  have hcount : ∀ p, (f.releaseAll (allTables f.pts d)).calls.count p =
      s.sectionUses cur sections p + (allTables f.pts d).count p := by
    intro p
    rw [hcalls, List.count_append, h.calls]
    rfl
  -- what an entry of the current process maps is no table
  have hplain : ∀ e r, s.node e r ≠ 0 → s.sectionUses cur sections (s.node e r) = 0 := by
    intro e r _
    refine Finset.card_eq_zero.mpr (Finset.filter_eq_empty_iff.mpr fun n _ hn => ?_)
    exact (hs.data cur _ _ hn).1 e r rfl
  have hsame : ∀ r, f.pts.node d r = s.node d r := h.node d
  have hone := fun p => count_allTables (d := d) hsep p
  -- the words of the other tables stay
  have hwords : ∀ e q, e ≠ d → s.node e q ≠ 0 →
      (f.releaseAll (allTables f.pts d)).pts.mem.words (s.node e q) =
        f.pts.mem.words (s.node e q) := by
    intro e q he hq
    refine releaseAll_words _ f fun hin => ?_
    obtain ⟨-, r, hr⟩ := (hmem _).mp hin
    exact he (hs.tables.separate _ _ _ _ hq hr.symm).1
  have hnode : ∀ e q, (without (f.releaseAll (allTables f.pts d)).pts d).node e q =
      if e = d then 0 else s.node e q := by
    intro e q
    have hwithout : ∀ e q, (without f.pts d).node e q = if e = d then 0 else s.node e q := by
      intro e q
      rw [without_node, h.node]
    rw [← hwithout]
    refine Radix.node_congr (congrArg (Function.update · d 0) hpt) (fun e q i hq _ => ?_) e q
    have hq' : (without f.pts d).node e q ≠ 0 := hq
    show (f.releaseAll (allTables f.pts d)).pts.mem.words ((without f.pts d).node e q) i = _
    rw [hwithout] at hq' ⊢
    split at hq'
    · exact (hq' rfl).elim
    · rename_i he
      rw [if_neg he, hwords e q he hq']
      show _ = f.pts.mem.words ((without f.pts d).node e q) i
      rw [hwithout, if_neg he]
  have hrest : (without (f.releaseAll (allTables f.pts d)).pts d).Tables := by
    refine ⟨fun e q e' q' hne heq => ?_, fun e q hne hin => ?_, fun e q hne => ?_, hdrops.pages,
      hdrops.nodup⟩
    · have hne' : (without (f.releaseAll (allTables f.pts d)).pts d).node e q ≠ 0 := hne
      have heq' : (without (f.releaseAll (allTables f.pts d)).pts d).node e q =
        (without (f.releaseAll (allTables f.pts d)).pts d).node e' q' := heq
      rw [hnode] at hne' heq'
      rw [hnode] at heq'
      split at hne'
      · exact (hne' rfl).elim
      · rename_i he
        rw [if_neg he] at heq'
        split at heq'
        · exact (hne' heq').elim
        · exact hs.tables.separate _ _ _ _ hne' heq'
    · rw [hnode] at hne hin
      split at hne
      · exact hne rfl
      · rename_i he
        rw [if_neg he] at hin
        rcases (hdrops.free _ (hs.tables.valid e q hne)).mp hin with hin | ⟨-, hpos, hle⟩
        · exact hs.tables.apart e q hne hin
        · rw [hcount, hplain e q hne, (hone _).2] at hle
          · omega
          · intro r hr
            rw [hsame] at hr
            exact he (hs.tables.separate _ _ _ _ hne hr.symm).1
    · rw [hnode] at hne ⊢
      split at hne
      · exact (hne rfl).elim
      · rename_i he
        rw [if_neg he]
        exact hs.tables.valid e q hne
  refine ⟨?_, ?_, ?_, fun r hr => ?_, fun p hp => ?_, hrest, fun e va he => ?_⟩
  · obtain ⟨hvalid, href, hzero, hfree, hpages, hnodup, htotal⟩ := hdrops
    exact ⟨hvalid, href, hzero, hfree, hpages, hnodup, htotal⟩
  · exact hpt.trans (funext fun e => h.node e [])
  · rw [h.blocks, List.nil_append]
  · show (f.releaseAll (allTables f.pts d)).calls.count _ = 1
    rw [hcount, hplain d r hr, ← hsame, (hone 0).1 r (by rw [hsame]; exact hr)]
  · show (f.releaseAll (allTables f.pts d)).calls.count _ = _
    rw [hcount, (hone p).2 fun r => by rw [hsame]; exact hp r]
    rfl
  · have hsame' : (without (f.releaseAll (allTables f.pts d)).pts d).node e (tablePath va) =
        f.pts.node e (tablePath va) := by
      rw [hnode, if_neg he, h.node]
    rw [← h.entry, PtState.entry_eq h.tables]
    refine (without_entry he va).symm.trans ((PtState.entry_eq hrest e va).trans ?_)
    refine Radix.slot_congr hsame' fun hne => congrFun ?_ _
    have hne' : f.pts.node e (tablePath va) ≠ 0 := hne
    have hword := hwords e (tablePath va) he
    rw [← h.node] at hword
    exact hword hne'

end Freed

open Freed in
/-- When it comes back. -/
theorem freePgdir_ended {s : PtState} (hs : s.Settled) (cur d : ℕ) (sections : List SectionNode)
    (hends : ∀ c ∈ sections, ¬c.2.Endless) :
    ∃ f, s.freePgdir cur d sections = some f ∧ Ended s cur d sections f := by
  have hinit : Unmapped s cur ∅ ⟨s, [], []⟩ := Unmapped.init hs
  obtain ⟨f, hf, hunmapped⟩ := hinit.freeRanges hs sections hends
  rw [Finset.empty_union] at hunmapped
  refine ⟨_, ?_, hunmapped.ended hs⟩
  unfold PtState.freePgdir Freed.freeSections
  rw [hf, Option.map_some, Option.map_some]
  refine congrArg some ?_
  dsimp only
  rw [← releaseAll_blocks]
  unfold allTables
  by_cases hroot : f.pts.pt d = 0
  · rw [if_pos hroot, if_pos hroot]
    rfl
  · rw [if_neg hroot, if_neg hroot, releaseAll_append]
    refine congrArg (Freed.kfreePage · (f.pts.pt d)) ?_
    exact freeTables_spec (s := f.pts) hunmapped.tables.separate 3 []
      { f with blocks := f.blocks ++ sections.map Prod.fst } (Nat.le_refl 3) hroot fun _ _ => rfl

/-- And when it does not. -/
theorem freePgdir_none (s : PtState) (cur d : ℕ) (sections : List SectionNode)
    (hendless : ∃ c ∈ sections, c.2.Endless) : s.freePgdir cur d sections = none := by
  unfold PtState.freePgdir Freed.freeSections
  rw [Freed.freeRanges_none sections _ hendless]
  rfl

/-! ### The building of a page table -/

namespace PtState

/-- Neither a page is lost nor one is gained. -/
theorem kallocPage_total {m m' : PageMem} {p : Addr} (h : m.kallocPage = some (p, m')) :
    m'.allocated + m'.free.length = m.allocated + m.free.length := by
  unfold PageMem.kallocPage at h
  split at h
  · cases h
  · rename_i q free hfree
    cases h
    rw [hfree, List.length_cons]
    push_cast
    show m.allocated + 1 + (free.length : ℤ) = _
    omega

theorem nextTable_total {m m' : PageMem} {table p : Addr} {i : PtIndex} {alloc : Bool}
    (h : nextTable m table i alloc = some (m', p)) :
    m'.allocated + m'.free.length = m.allocated + m.free.length := by
  unfold nextTable at h
  split at h
  · split at h
    · split at h
      · cases h
      · rename_i hpage
        cases h
        have htotal := kallocPage_total hpage
        exact htotal
    · cases h
      rfl
  · cases h
    rfl

theorem walk_total {alloc : Bool} : ∀ (is : List PtIndex) {m m' : PageMem} {table p : Addr},
    walk m table alloc is = some (m', p) →
    m'.allocated + m'.free.length = m.allocated + m.free.length
  | [], m, m', table, p => by
    intro h
    cases h
    rfl
  | i :: is, m, m', table, p => by
    intro h
    unfold walk at h
    split at h
    · cases h
    · rename_i hnext
      have hfirst := nextTable_total hnext
      split at h
      · cases h
        exact hfirst
      · exact (walk_total is h).trans hfirst

theorem getPte_total {s t : PtState} {d : ℕ} {va : BitVec 64} {alloc : Bool} {o : Option PtePtr}
    (h : s.getPte d va alloc = some (t, o)) :
    t.mem.allocated + t.mem.free.length = s.mem.allocated + s.mem.free.length := by
  unfold getPte at h
  dsimp only at h
  split at h
  · cases h
  rename_i u table hroot
  have hfirst : u.mem.allocated + u.mem.free.length = s.mem.allocated + s.mem.free.length := by
    split at hroot
    · split at hroot
      · obtain ⟨⟨p, m⟩, hpage, heq⟩ := Option.map_eq_some_iff.mp hroot
        cases heq
        exact kallocPage_total hpage
      · cases hroot
        rfl
    · cases hroot
      rfl
  split at h
  · cases h
    exact hfirst
  · split at h
    · cases h
    · rename_i hwalk
      cases h
      exact (walk_total _ hwalk).trans hfirst

/-- What has become of the pages since `s₀`, when `d` had no table. -/
structure Built (s₀ : PtState) (d : ℕ) (s : PtState) : Prop where
  start : s₀.Settled
  settled : s.Settled
  free : s.mem.free <:+ s₀.mem.free
  /-- what has left the list is a table of `d`, and the other way round -/
  used : ∀ p ∈ s₀.mem.free, p ∉ s.mem.free → ∃ q, s.node d q = p
  made : ∀ q, s.node d q ≠ 0 → s.node d q ∈ s₀.mem.free
  plain : ∀ p, p ∉ s₀.mem.free → s₀.Plain p → s.Plain p
  ref : ∀ n, (∀ p ∈ s₀.mem.free, p ∉ s.mem.free → pageIndex p ≠ n) → s.mem.ref n = s₀.mem.ref n
  count : ∀ p ∈ s₀.mem.free, p ∉ s.mem.free → s.mem.ref (pageIndex p) = 1
  zero : s.mem.zero = s₀.mem.zero
  total : s.mem.allocated + s.mem.free.length = s₀.mem.allocated + s₀.mem.free.length

variable {s₀ s t : PtState} {d : ℕ} {path : List PtIndex}

theorem Built.init (hs : s.Settled) (hd : s.pt d = 0) : Built s d s := by
  refine ⟨hs, hs, List.suffix_rfl, fun p hp hnot => (hnot hp).elim, fun q hq => ?_, fun _ _ h => h,
    fun _ _ => rfl, fun p hp hnot => (hnot hp).elim, rfl, rfl⟩
  have hzero := Radix.node_append_of_zero (show s.node d [] = 0 from hd) q
  rw [List.append_nil] at hzero
  exact (hq hzero).elim

/-- Tables are added. -/
theorem Built.walked (h : Built s₀ d s) (ht : t.Tables) (hw : Walked s t d path)
    (htotal : t.mem.allocated + t.mem.free.length = s.mem.allocated + s.mem.free.length) :
    Built s₀ d t := by
  have hs := h.settled
  have hentry := hw.entry hs.tables ht
  -- the count of a page that stays in the list, or has left it before, does not change
  have href : ∀ p, ValidPage p → (p ∈ s.mem.free → p ∈ t.mem.free) →
      t.mem.ref (pageIndex p) = s.mem.ref (pageIndex p) := by
    intro p hp hstay
    refine hw.ref _ fun q hq hqt heq => ?_
    obtain rfl := (hs.tables.pages q hq).index_inj hp heq
    exact hqt (hstay hq)
  refine ⟨h.start, ⟨ht, fun e va p hp => ?_, fun p hp => ?_, fun hz => ?_⟩, hw.free.trans h.free,
    fun p hp hpt => ?_, fun q hq => ?_, fun p hp hplain => ?_, fun n hn => ?_, fun p hp hpt => ?_,
    hw.zero.trans h.zero, htotal.trans h.total⟩
  · rw [hentry] at hp
    obtain ⟨hplain, hfree⟩ := hs.data e va p hp
    exact ⟨hw.node_ne hfree hplain, fun hin => hfree (hw.free.subset hin)⟩
  · rw [href p (ht.pages p hp) fun _ => hp]
    exact hs.free_ref p (hw.free.subset hp)
  · rw [hw.zero] at hz
    exact hs.zero (hw.free.subset hz)
  · by_cases hps : p ∈ s.mem.free
    · exact hw.used p hps hpt
    · obtain ⟨q, rfl⟩ := h.used p hp hps
      exact ⟨q, hw.tables.keep d q (h.start.tables.pages _ hp).ne_zero⟩
  · by_cases hqs : s.node d q = 0
    · exact h.free.subset (hw.fresh d q hqs hq)
    · have hkeep : t.node d q = s.node d q := hw.tables.keep d q hqs
      rw [hkeep]
      exact h.made q hqs
  · exact hw.node_ne (fun hin => hp (h.free.subset hin)) (h.plain p hp hplain)
  · rw [hw.ref n fun p hps hpt => hn p (h.free.subset hps) hpt]
    exact h.ref n fun p hp hps => hn p hp fun hpt => hps (hw.free.subset hpt)
  · by_cases hps : p ∈ s.mem.free
    · exact hw.count p hps hpt
    · rw [href p (h.start.tables.pages p hp) fun hin => (hps hin).elim]
      exact h.count p hp hps

/-- An entry is written. -/
theorem Built.writePte (h : Built s₀ d s) {e : ℕ} {va v : BitVec 64}
    (hr : s.node e (tablePath va) ≠ 0) (hv : ∀ p, mapped v = some p → s.Plain p ∧ p ∉ s.mem.free) :
    Built s₀ d (s.writePte (s.node e (tablePath va), pdIndex va 12) v) := by
  have hs := h.settled
  have hnode := writePte_node (i := pdIndex va 12) hs.tables hr rfl v
  have hplain : ∀ p, s.Plain p → (s.writePte (s.node e (tablePath va), pdIndex va 12) v).Plain p := by
    intro p hp e' q
    rw [hnode]
    exact hp e' q
  refine ⟨h.start, ⟨hs.tables.writePte hr rfl v, fun e' va' p hp => ?_, hs.free_ref, hs.zero⟩,
    h.free, fun p hp hps => ?_, fun q hq => ?_, fun p hp hps => hplain p (h.plain p hp hps), h.ref,
    h.count, h.zero, h.total⟩
  · rw [writePte_entry hs.tables hr] at hp
    split at hp
    · exact ⟨hplain p (hv p hp).1, (hv p hp).2⟩
    · obtain ⟨hps, hfree⟩ := hs.data e' va' p hp
      exact ⟨hplain p hps, hfree⟩
  · obtain ⟨q, hq⟩ := h.used p hp hps
    exact ⟨q, (hnode d q).trans hq⟩
  · rw [hnode] at hq ⊢
    exact h.made q hq

/-- **One step of the building.** -/
theorem Built.pgdirCall {c : PgdirCall} (h : Built s₀ d s) (hc : s.DirAllowed d c)
    (hs : s.pgdirCall d c = some t) : Built s₀ d t := by
  cases c with
  | init =>
    obtain ⟨⟨p, m⟩, hpage, rfl⟩ := Option.map_eq_some_iff.mp hs
    obtain ⟨htables, hwalked, -⟩ := h.settled.tables.newRoot hc hpage
    exact h.walked htables hwalked (kallocPage_total hpage)
  | getPte va =>
    obtain ⟨⟨u, o⟩, hget, rfl⟩ := Option.map_eq_some_iff.mp hs
    obtain ⟨htables, hwalked, -⟩ := getPte_spec h.settled.tables hget
    exact h.walked htables hwalked (getPte_total hget)
  | set va v =>
    simp only [PtState.pgdirCall, setPte] at hs
    split at hs
    · rename_i u pte hget
      cases hs
      obtain ⟨htables, hwalked, ho, halloc, -⟩ := getPte_spec h.settled.tables hget
      rw [if_neg (halloc rfl)] at ho
      cases ho
      refine (h.walked htables hwalked (getPte_total hget)).writePte (halloc rfl) fun p hp => ?_
      obtain ⟨hplain, hfree⟩ := hc p hp
      exact ⟨hwalked.node_ne hfree hplain, fun hin => hfree (hwalked.free.subset hin)⟩
    · cases hs

/-- And the whole of it. -/
theorem built_of_leads (hinit : (dirSystem d).init s₀)
    (hrun : (dirSystem d).Leads (DirAllowed d) s₀ s) : Built s₀ d s :=
  hrun.induction (I := Built s₀ d) (fun _ _ _ hi hc hs => hi.pgdirCall hc hs)
    (.init hinit.1 hinit.2)

end PtState

/-! ### The whole -/

/-- The pages `m'` are accounted for as `m` was, with `drop p` references of a page less. -/
structure Restored (m : PageMem) (drop : Addr → ℕ) (m' : PageMem) : Prop where
  ref : ∀ p, ValidPage p → m'.ref (pageIndex p) = m.ref (pageIndex p) - drop p
  free : ∀ p, ValidPage p → (p ∈ m'.free ↔ p ∈ m.free ∨
    (p ≠ m.zero ∧ 0 < m.ref (pageIndex p) ∧ m.ref (pageIndex p) ≤ drop p))
  nodup : m'.free.Nodup
  total : m'.allocated + m'.free.length = m.allocated + m.free.length
  allocated : (∀ p, drop p = 0) → m'.allocated = m.allocated

/-- The calls of `kfree_page`: each table once, another page as often as the sections of `d`
map it; and the pages are as they were before the tables were built. -/
structure FreesOwn (s₀ s : PtState) (d : ℕ) (sections : List SectionNode) (f : Freed) : Prop where
  tables : ∀ r, s.node d r ≠ 0 → f.calls.count (s.node d r) = 1
  others : ∀ p, (∀ r, s.node d r ≠ p) → f.calls.count p = s.sectionUses d sections p
  accounts : Restored s₀.mem (s.sectionUses d sections) f.pts.mem

section Ending

open Freed PtState

variable {s₀ s : PtState} {cur d : ℕ} {sections : List SectionNode} {f : Freed}

theorem sectionUses_nil (s : PtState) (e : ℕ) (p : Addr) : s.sectionUses e [] p = 0 := by
  have hnone : sectionPages [] = ∅ := rfl
  rw [sectionUses, hnone, Finset.filter_empty, Finset.card_empty]

/-- No section maps a table. -/
theorem sectionUses_node (hs : s.Settled) (e cur : ℕ) (r : List PtIndex) :
    s.sectionUses cur sections (s.node e r) = 0 := by
  refine Finset.card_eq_zero.mpr (Finset.filter_eq_empty_iff.mpr fun n _ hn => ?_)
  exact (hs.data cur _ _ hn).1 e r rfl

/-- A table of `d` has the count 1, and had been free. -/
theorem PtState.Built.table_ref (h : Built s₀ d s) {r : List PtIndex} (hr : s.node d r ≠ 0) :
    s.mem.ref (pageIndex (s.node d r)) = 1 ∧ s₀.mem.ref (pageIndex (s.node d r)) = 0 ∧
      s.node d r ≠ s.mem.zero := by
  have hin := h.made r hr
  refine ⟨h.count _ hin (h.settled.tables.apart d r hr), h.start.free_ref _ hin, fun hz => ?_⟩
  rw [hz, h.zero] at hin
  exact h.start.zero hin

/-- Another page is counted and listed as before the tables were built. -/
theorem PtState.Built.other_ref (h : Built s₀ d s) {p : Addr} (hp : ValidPage p)
    (hplain : ∀ r, s.node d r ≠ p) :
    s.mem.ref (pageIndex p) = s₀.mem.ref (pageIndex p) ∧ (p ∈ s.mem.free ↔ p ∈ s₀.mem.free) := by
  constructor
  · refine h.ref _ fun q hq hqs heq => ?_
    obtain rfl := (h.start.tables.pages q hq).index_inj hp heq
    obtain ⟨r, hr⟩ := h.used q hq hqs
    exact hplain r hr
  · refine ⟨fun hin => h.free.subset hin, fun hin => ?_⟩
    by_contra hnot
    obtain ⟨r, hr⟩ := h.used p hin hnot
    exact hplain r hr

/-- The accounts after the calls. -/
theorem Freed.Ended.restored (h : Ended s cur d sections f) (hb : Built s₀ d s) :
    Restored s₀.mem (s.sectionUses cur sections) f.pts.mem := by
  have hfree : ∀ p, ValidPage p → (p ∈ f.pts.mem.free ↔ p ∈ s₀.mem.free ∨ (p ≠ s₀.mem.zero ∧
      0 < s₀.mem.ref (pageIndex p) ∧
        s₀.mem.ref (pageIndex p) ≤ s.sectionUses cur sections p)) := by
    intro p hp
    rw [h.drops.free p hp]
    by_cases htable : ∃ r, s.node d r = p
    · -- a table goes back to the list
      obtain ⟨r, rfl⟩ := htable
      have hr := hp.ne_zero
      obtain ⟨hone, -, hzero⟩ := hb.table_ref hr
      rw [h.tables r hr, hone]
      exact iff_of_true (.inr ⟨hzero, by decide, by decide⟩) (.inl (hb.made r hr))
    · have hplain : ∀ r, s.node d r ≠ p := fun r hr => htable ⟨r, hr⟩
      obtain ⟨href, hin⟩ := hb.other_ref hp hplain
      rw [href, hin, h.others p hplain, hb.zero]
  have htotal := h.drops.total.trans hb.total
  refine ⟨fun p hp => ?_, hfree, h.drops.nodup, htotal, fun hnone => ?_⟩
  · rw [h.drops.ref p hp]
    by_cases htable : ∃ r, s.node d r = p
    · obtain ⟨r, rfl⟩ := htable
      have hr := hp.ne_zero
      obtain ⟨hone, hnull, -⟩ := hb.table_ref hr
      rw [h.tables r hr, hone, hnull, sectionUses_node hb.settled]
      rfl
    · have hplain : ∀ r, s.node d r ≠ p := fun r hr => htable ⟨r, hr⟩
      rw [(hb.other_ref hp hplain).1, h.others p hplain]
  · -- no page has gone to the list but the tables
    have hperm : f.pts.mem.free.Perm s₀.mem.free := by
      refine (List.perm_ext_iff_of_nodup h.drops.nodup hb.start.tables.nodup).mpr fun p => ?_
      by_cases hp : ValidPage p
      · rw [hfree p hp, hnone p]
        refine or_iff_left ?_
        rintro ⟨-, hpos, hle⟩
        have hle' : s₀.mem.ref (pageIndex p) ≤ 0 := hle
        omega
      · exact iff_of_false (fun hin => hp (h.drops.pages p hin))
          fun hin => hp (hb.start.tables.pages p hin)
    have hlength := hperm.length_eq
    omega

end Ending

/-- **Which calls `free_pgdir` makes.**  When the tables of `d` have been built in any way, it
comes back, releases each of them once, and other pages as often as the sections of `d` map
them, so that the pages are accounted for as before, if and only if no section ends in the last
page of the addresses, and in the sections the current process maps the pages that `d` maps. -/
theorem freePgdir_calls_iff (cur d : ℕ) (sections : List SectionNode) (s₀ s : PtState)
    (hinit : (dirSystem d).init s₀) (hrun : (dirSystem d).Leads (PtState.DirAllowed d) s₀ s) :
    (∃ f, s.freePgdir cur d sections = some f ∧ FreesOwn s₀ s d sections f) ↔
      (∀ c ∈ sections, ¬c.2.Endless) ∧
        ∀ p, s.sectionUses cur sections p = s.sectionUses d sections p := by
  have hb := PtState.built_of_leads hinit hrun
  constructor
  · rintro ⟨f, hf, hown⟩
    have hends : ∀ c ∈ sections, ¬c.2.Endless := by
      intro c hc hendless
      rw [freePgdir_none s cur d sections ⟨c, hc, hendless⟩] at hf
      cases hf
    obtain ⟨g, hg, hended⟩ := freePgdir_ended hb.settled cur d sections hends
    obtain rfl := Option.some.inj (hf.symm.trans hg)
    refine ⟨hends, fun p => ?_⟩
    by_cases htable : ∃ r, s.node d r = p
    · obtain ⟨r, rfl⟩ := htable
      rw [sectionUses_node hb.settled, sectionUses_node hb.settled]
    · have hplain : ∀ r, s.node d r ≠ p := fun r hr => htable ⟨r, hr⟩
      rw [← hended.others p hplain, hown.others p hplain]
  · rintro ⟨hends, huses⟩
    obtain ⟨f, hf, hended⟩ := freePgdir_ended hb.settled cur d sections hends
    have hfun : s.sectionUses cur sections = s.sectionUses d sections := funext huses
    exact ⟨f, hf, hended.tables, fun p hp => hfun ▸ hended.others p hp, hfun ▸ hended.restored hb⟩

/-! ### A run -/

theorem ptStart_settled : ptStart.Settled := by
  refine ⟨ptStart_fresh.tables, fun e va p hp => ?_, fun _ _ => rfl, by decide⟩
  rw [ptStart_fresh.shows e va, mapped_zero] at hp
  cases hp

/-- A page outside the pool is no table. -/
theorem ptStart_plain {p : Addr} (hp : p ≠ ptPage 0) (hne : p ≠ 0) : ptStart.Plain p := by
  intro e r
  cases r with
  | nil =>
    show (if e = 0 then ptPage 0 else 0) ≠ p
    split
    · exact hp.symm
    · exact hne.symm
  | cons i r =>
    rw [ptStart_fresh.node_cons]
    exact hne.symm

/-- Directory 1 gets its tables, and a page. -/
theorem ptStart_set : ∃ s, ptStart.setPte 1 0x40001000#64 (dataEntry (ptPage 9)) = some s ∧
    (dirSystem 1).Leads (PtState.DirAllowed 1) ptStart s := by
  have hsome : (ptStart.setPte 1 0x40001000#64 (dataEntry (ptPage 9))).isSome := by decide
  obtain ⟨s, hs⟩ := Option.isSome_iff_exists.mp hsome
  have hallowed : ptStart.DirAllowed 1 (.set 0x40001000#64 (dataEntry (ptPage 9))) := by
    intro p hp
    have hpage : mapped (dataEntry (ptPage 9)) = some (ptPage 9) := by decide
    obtain rfl := Option.some.inj (hpage.symm.trans hp)
    exact ⟨ptStart_plain (by decide) (by decide), by decide⟩
  exact ⟨s, hs, (System.Leads.refl ptStart).tail hallowed hs⟩

/-- The tables of the current process; two pages are in its section, and one of them is mapped. -/
theorem freePgdir_calls_own : ∃ s f, ptStart.setPte 1 0x40001000#64 (dataEntry (ptPage 9)) = some s ∧
    s.freePgdir 1 1 [(7, ⟨8, 0x40000800#64, 0x40001004#64⟩)] = some f ∧
    FreesOwn ptStart s 1 [(7, ⟨8, 0x40000800#64, 0x40001004#64⟩)] f := by
  obtain ⟨s, hs, hrun⟩ := ptStart_set
  obtain ⟨f, hf, hown⟩ := (freePgdir_calls_iff 1 1 [(7, ⟨8, 0x40000800#64, 0x40001004#64⟩)] ptStart s
    ⟨ptStart_settled, rfl⟩ hrun).mpr ⟨by decide, fun _ => rfl⟩
  exact ⟨s, f, hs, hf, hown⟩

/-- Directory 2 maps nothing in its section; the current process has directory 1, and its page
is released. -/
theorem freePgdir_calls_foreign : ∃ s₀ s, (dirSystem 2).init s₀ ∧
    (dirSystem 2).Leads (PtState.DirAllowed 2) s₀ s ∧
    ∀ f, s.freePgdir 1 2 [(7, ⟨8, 0x40001000#64, 0x40002000#64⟩)] = some f →
      ptPage 9 ∈ f.calls ∧ ¬FreesOwn s₀ s 2 [(7, ⟨8, 0x40001000#64, 0x40002000#64⟩)] f := by
  obtain ⟨s, hs, hrun⟩ := ptStart_set
  have hsettled := (PtState.built_of_leads ⟨ptStart_settled, rfl⟩ hrun).settled
  have hcalls : ((ptStart.setPte 1 0x40001000#64 (dataEntry (ptPage 9))).bind fun s =>
      (s.initPgdir 2).bind fun t =>
        (t.freePgdir 1 2 [(7, ⟨8, 0x40001000#64, 0x40002000#64⟩)]).map fun f =>
          (f.calls, decide (s.pt 2 = 0),
            t.sectionUses 2 [(7, ⟨8, 0x40001000#64, 0x40002000#64⟩)] (ptPage 9))) =
      some ([ptPage 9, ptPage 5], true, 0) := by
    decide +kernel
  rw [hs, Option.bind_some] at hcalls
  obtain ⟨t, ht, hmap⟩ := Option.bind_eq_some_iff.mp hcalls
  obtain ⟨f, hf, heq⟩ := Option.map_eq_some_iff.mp hmap
  simp only [Prod.mk.injEq, decide_eq_true_eq] at heq
  obtain ⟨hlist, hroot, huses⟩ := heq
  refine ⟨s, t, ⟨hsettled, hroot⟩, (System.Leads.refl s).tail (l := .init) hroot ht, fun g hg => ?_⟩
  obtain rfl := Option.some.inj (hf.symm.trans hg)
  rw [hlist]
  refine ⟨List.mem_cons_self, fun hown => ?_⟩
  -- the page is not one of those that directory 2 maps, and it is none of its tables
  have hone : f.calls.count (ptPage 9) = 1 := by
    rw [hlist]
    decide
  have hplain : t.Plain (ptPage 9) := by
    have hbuilt := PtState.built_of_leads (d := 2) ⟨hsettled, hroot⟩
      ((System.Leads.refl s).tail (l := .init) hroot ht)
    have hfirst := PtState.built_of_leads ⟨ptStart_settled, rfl⟩ hrun
    have hnot : ptPage 9 ∉ ptStart.mem.free := by decide
    exact hbuilt.plain _ (fun hin => hnot (hfirst.free.subset hin))
      (hfirst.plain _ hnot (ptStart_plain (by decide) (by decide)))
  rw [hown.others _ (hplain 2), huses] at hone
  cases hone

/-! ### The other address spaces, and what is left of this one -/

/-- What the end of an address space is to leave alone: references that are not those of its
own sections, the entries of the other directories; it leaves no pointer to a page that has been
released, and a second call does nothing. -/
structure EndsAlone (s : PtState) (cur d : ℕ) (sections : List SectionNode) (f : Freed) : Prop where
  drops : ∀ p, (∀ r, s.node d r ≠ p) → f.calls.count p = s.sectionUses d sections p
  others : ∀ e va, e ≠ d → f.pts.entry e va = s.entry e va
  pointer : f.pts.pt d ∉ f.pts.mem.free
  again : ∀ g, f.pts.freePgdir cur d sections = some g → g.calls = [] ∧ g.blocks = []

section Alone

open Freed PtState

variable {s₀ s : PtState} {cur d : ℕ} {sections : List SectionNode} {f : Freed}

/-- The references are those of `d` when the current process maps the same pages. -/
theorem Freed.Ended.drops_iff (h : Ended s cur d sections f) (hs : s.Settled) :
    (∀ p, (∀ r, s.node d r ≠ p) → f.calls.count p = s.sectionUses d sections p) ↔
      ∀ p, s.sectionUses cur sections p = s.sectionUses d sections p := by
  refine ⟨fun hall p => ?_, fun hall p hp => (h.others p hp).trans (hall p)⟩
  by_cases htable : ∃ r, s.node d r = p
  · obtain ⟨r, rfl⟩ := htable
    rw [sectionUses_node hs, sectionUses_node hs]
  · have hplain : ∀ r, s.node d r ≠ p := fun r hr => htable ⟨r, hr⟩
    rw [← h.others p hplain, hall p hplain]

/-- The entries of the others stay unless the current process is another one with pages in these
sections. -/
theorem Freed.Ended.others_iff (h : Ended s cur d sections f) (hs : s.Settled) :
    (∀ e va, e ≠ d → f.pts.entry e va = s.entry e va) ↔
      cur = d ∨ ∀ n ∈ sectionPages sections, mapped (s.entry cur (vaOf n)) = none := by
  constructor
  · intro hall
    by_cases hcur : cur = d
    · exact .inl hcur
    · refine .inr fun n hn => ?_
      by_contra hne
      have hlt : n < 2 ^ 36 := by
        simp only [sectionPages, List.mem_toFinset, List.mem_flatMap, List.mem_map] at hn
        obtain ⟨c, -, k, -, rfl⟩ := hn
        exact vpn_lt _
      have hentry := h.entry cur (vaOf n) hcur
      rw [vpn_vaOf hlt, if_pos ⟨rfl, hn, hne⟩, hall cur _ hcur] at hentry
      rw [hentry, mapped_zero] at hne
      exact hne rfl
  · intro hor e va he
    rw [h.entry e va he]
    refine if_neg ?_
    rintro ⟨rfl, hin, hne⟩
    rcases hor with rfl | hnone
    · exact he rfl
    · rw [entry_congr hs.tables (vpn_vaOf (vpn_lt va)).symm, hnone _ hin] at hne
      exact hne rfl

/-- The pointer to the root table stays. -/
theorem Freed.Ended.pointer_iff (h : Ended s cur d sections f) (hb : Built s₀ d s) :
    f.pts.pt d ∉ f.pts.mem.free ↔ s.pt d = 0 := by
  rw [h.pt]
  by_cases hroot : s.pt d = 0
  · refine iff_of_true (fun hin => ?_) hroot
    exact (h.drops.pages _ hin).ne_zero hroot
  · have hnode : s.node d [] ≠ 0 := hroot
    obtain ⟨hone, -, hzero⟩ := hb.table_ref hnode
    refine iff_of_false (not_not_intro ?_) hroot
    refine (h.drops.free _ (hb.settled.tables.valid d [] hnode)).mpr (.inr ⟨hzero, ?_⟩)
    rw [h.tables [] hnode, hone]
    exact ⟨by decide, by decide⟩

theorem PtState.writePte_pt (s : PtState) (pte : PtePtr) (v : BitVec 64) :
    (s.writePte pte v).pt = s.pt := rfl

theorem Freed.kfreePage_pt (f : Freed) (p : Addr) : (f.kfreePage p).pts.pt = f.pts.pt := rfl

theorem Freed.freePte_pt (f : Freed) (cur : ℕ) (va : BitVec 64) :
    (f.freePte cur va).pts.pt = f.pts.pt := by
  obtain ⟨o, ho⟩ := getPte_false f.pts cur va
  unfold Freed.freePte
  rw [ho]
  cases o with
  | none => rfl
  | some pte =>
    dsimp only
    split
    · exact (PtState.writePte_pt _ _ _).trans (Freed.kfreePage_pt _ _)
    · rfl

theorem Freed.freeRange_pt (cur : ℕ) : ∀ (n : ℕ) (start : BitVec 64) (f : Freed),
    (Freed.freeRange cur n start f).pts.pt = f.pts.pt
  | 0, _, _ => rfl
  | n + 1, start, f => (freeRange_pt cur n (start + 4096) (f.freePte cur start)).trans
    (f.freePte_pt cur start)

/-- The loops end whatever the tables are. -/
theorem Freed.freeRanges_some (cur : ℕ) : ∀ (sections : List SectionNode) (f : Freed),
    (∀ c ∈ sections, ¬c.2.Endless) →
    ∃ g, f.freeRanges cur sections = some g ∧ g.pts.pt = f.pts.pt
  | [], f => fun _ => ⟨f, rfl, rfl⟩
  | c :: rest, f => by
    intro hends
    obtain ⟨g, hg, hpt⟩ := freeRanges_some cur rest
      (Freed.freeRange cur c.2.rounds (pageBase c.2.begin) f)
      fun c' hc' => hends c' (List.mem_cons_of_mem c hc')
    refine ⟨g, ?_, hpt.trans (freeRange_pt cur _ _ _)⟩
    rw [Freed.freeRanges, if_neg (hends c List.mem_cons_self)]
    exact hg

/-- A call that comes back releases nothing only if there is nothing. -/
theorem PtState.freePgdir_nothing_iff (s : PtState) (cur d : ℕ) (sections : List SectionNode)
    (hends : ∀ c ∈ sections, ¬c.2.Endless) :
    (∀ g, s.freePgdir cur d sections = some g → g.calls = [] ∧ g.blocks = []) ↔
      s.pt d = 0 ∧ sections = [] := by
  obtain ⟨f, hf, hpt⟩ := Freed.freeRanges_some cur sections ⟨s, [], []⟩ hends
  have hroot : f.pts.pt d = s.pt d := congrFun hpt d
  have hcall : s.freePgdir cur d sections = some
      (if s.pt d = 0 then { f with blocks := f.blocks ++ sections.map Prod.fst }
      else (Freed.freeTables 3 (s.pt d) { f with
        blocks := f.blocks ++ sections.map Prod.fst }).kfreePage (s.pt d)) := by
    unfold PtState.freePgdir Freed.freeSections
    rw [hf, Option.map_some, Option.map_some]
    dsimp only
    rw [hroot]
  constructor
  · intro hnothing
    obtain ⟨hcalls, hblocks⟩ := hnothing _ hcall
    by_cases hzero : s.pt d = 0
    · rw [if_pos hzero] at hblocks
      exact ⟨hzero, List.map_eq_nil_iff.mp (List.append_eq_nil_iff.mp hblocks).2⟩
    · -- the root table is released again
      rw [if_neg hzero] at hcalls
      exact (List.append_ne_nil_of_right_ne_nil _ (List.cons_ne_nil _ _) hcalls).elim
  · rintro ⟨hzero, rfl⟩ g hg
    cases hf
    rw [hcall, if_pos hzero] at hg
    cases hg
    exact ⟨rfl, rfl⟩

end Alone

/-- **What the end of an address space leaves alone.**  All that it is to leave alone, if and only
if there is neither a root table nor a section.  Of the parts, in a call that comes back: the
references are those of `d` if and only if the current process maps the same pages in the
sections; the entries of the other directories stay if and only if the current process has this
directory or no page in the sections; the pointer to the root table is good only if it is
`NULL`. -/
theorem freePgdir_alone_iff (cur d : ℕ) (sections : List SectionNode) (s₀ s : PtState)
    (hinit : (dirSystem d).init s₀) (hrun : (dirSystem d).Leads (PtState.DirAllowed d) s₀ s) :
    ((∃ f, s.freePgdir cur d sections = some f ∧ EndsAlone s cur d sections f) ↔
      s.pt d = 0 ∧ sections = []) ∧
      ∀ f, s.freePgdir cur d sections = some f →
        ((∀ p, (∀ r, s.node d r ≠ p) → f.calls.count p = s.sectionUses d sections p) ↔
          ∀ p, s.sectionUses cur sections p = s.sectionUses d sections p) ∧
        ((∀ e va, e ≠ d → f.pts.entry e va = s.entry e va) ↔
          cur = d ∨ ∀ n ∈ PtState.sectionPages sections, mapped (s.entry cur (vaOf n)) = none) ∧
        (f.pts.pt d ∉ f.pts.mem.free ↔ s.pt d = 0) := by
  have hb := PtState.built_of_leads hinit hrun
  have hcase : ∀ f, s.freePgdir cur d sections = some f →
      (∀ c ∈ sections, ¬c.2.Endless) ∧ Freed.Ended s cur d sections f := by
    intro f hf
    have hends : ∀ c ∈ sections, ¬c.2.Endless := by
      intro c hc hendless
      rw [freePgdir_none s cur d sections ⟨c, hc, hendless⟩] at hf
      cases hf
    obtain ⟨g, hg, hended⟩ := freePgdir_ended hb.settled cur d sections hends
    obtain rfl := Option.some.inj (hf.symm.trans hg)
    exact ⟨hends, hended⟩
  refine ⟨⟨?_, ?_⟩, fun f hf => ?_⟩
  · rintro ⟨f, hf, halone⟩
    obtain ⟨hends, hended⟩ := hcase f hf
    have hnothing := (f.pts.freePgdir_nothing_iff cur d sections hends).mp halone.again
    rwa [hended.pt] at hnothing
  · rintro ⟨hzero, rfl⟩
    obtain ⟨f, hf, hended⟩ := freePgdir_ended hb.settled cur d [] nofun
    refine ⟨f, hf, (hended.drops_iff hb.settled).mpr fun p => ?_,
      (hended.others_iff hb.settled).mpr (.inr fun n hn => ?_), (hended.pointer_iff hb).mpr hzero,
      (f.pts.freePgdir_nothing_iff cur d [] nofun).mpr ⟨?_, rfl⟩⟩
    · rw [sectionUses_nil, sectionUses_nil]
    · exact (Finset.notMem_empty n hn).elim
    · rw [hended.pt]
      exact hzero
  · obtain ⟨-, hended⟩ := hcase f hf
    exact ⟨hended.drops_iff hb.settled, hended.others_iff hb.settled, hended.pointer_iff hb⟩

/-- Before it gets its root table a directory can be freed any number of times. -/
theorem freePgdir_alone_empty : ∃ f, ptStart.freePgdir 0 1 [] = some f ∧
    EndsAlone ptStart 0 1 [] f := by
  have hroot : ptStart.pt 1 = 0 := rfl
  exact (freePgdir_alone_iff 0 1 [] ptStart ptStart ⟨ptStart_settled, hroot⟩
    (System.Leads.refl ptStart)).1.mpr ⟨hroot, rfl⟩

/-- The current process, just after `init_pgdir`: the root table is released, and the directory
still points to it. -/
theorem freePgdir_dangling : ∃ s₀ s, (dirSystem 1).init s₀ ∧
    (dirSystem 1).Leads (PtState.DirAllowed 1) s₀ s ∧
    ∀ f, s.freePgdir 1 1 [(7, ⟨8, 0#64, 0#64⟩)] = some f →
      f.pts.pt 1 ∈ f.pts.mem.free ∧ ¬EndsAlone s 1 1 [(7, ⟨8, 0#64, 0#64⟩)] f := by
  have hpointer : ((ptStart.initPgdir 1).bind fun s =>
      (s.freePgdir 1 1 [(7, ⟨8, 0#64, 0#64⟩)]).map fun f => decide (f.pts.pt 1 ∈ f.pts.mem.free)) =
      some true := by
    decide +kernel
  obtain ⟨s, hs, hmap⟩ := Option.bind_eq_some_iff.mp hpointer
  obtain ⟨f, hf, hin⟩ := Option.map_eq_some_iff.mp hmap
  refine ⟨ptStart, s, ⟨ptStart_settled, rfl⟩,
    (System.Leads.refl ptStart).tail (l := .init) (rfl : ptStart.pt 1 = 0) hs, fun g hg => ?_⟩
  obtain rfl := Option.some.inj (hf.symm.trans hg)
  exact ⟨of_decide_eq_true hin, fun halone => halone.pointer (of_decide_eq_true hin)⟩

end OsLab
