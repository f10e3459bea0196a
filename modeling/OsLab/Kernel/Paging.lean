/-
The heap of a process: `sbrk` and `pgfault_handler` of `kernel/paging.c`, and the counts of
the pages that are mapped in it.

A heap page is mapped when it is first touched.  The zero page may be mapped read-only at
many addresses; a write to such an address gets a page of its own.  `page_refs` counts the
entries that map a page.

* `PagingState.Counted` — every count is the number of entries, and a page is free when
  nothing maps it;
* `PagingState.InRange` — `sbrk` neither wraps around nor goes below the start of the heap;
* `paging_sound` — the counts, the heap end, the zero page and the page faults in the runs
  of such calls.
-/
import OsLab.Kernel.PageTable
import OsLab.Lib.System
import OsLab.Lib.Uses
import Mathlib.Data.Fintype.Prod
import Mathlib.Data.Int.Notation

namespace OsLab

attribute [local instance] nPtePerTable_neZero

/-- `PTE_VALID` -/
abbrev pteValid : BitVec 64 := 0x1#64

/-- `PTE_RO` -/
abbrev pteRo : BitVec 64 := 0x80#64

/-- `PTE_USER_DATA` -/
abbrev pteUserData : BitVec 64 := 0x647#64

/-- `PAGE_BASE` -/
def pageBase (addr : BitVec 64) : BitVec 64 := addr &&& ~~~0xFFF#64

namespace PtState

/-- The body of the loop of `sbrk`: the page of an address is let go. -/
def freePte (s : PtState) (d : ℕ) (va : BitVec 64) : PtState :=
  match s.getPte d va false with
  | some (s, some pte) =>
    let e := s.mem.words pte.1 pte.2
    if e &&& pteValid ≠ 0 then
      writePte { s with mem := s.mem.kfreePage (p2k (pteAddress e)) } pte 0
    else s
  | _ => s

/-- The loop, with the number of pages left. -/
def freeRange (s : PtState) (d : ℕ) : ℕ → BitVec 64 → PtState
  | 0, _ => s
  | n + 1, start => freeRange (s.freePte d start) d n (start + 4096)

/-- `memcpy(page, source, PAGE_SIZE)` -/
def copyPage (s : PtState) (page source : Addr) : PtState :=
  { s with mem := { s.mem with words := Function.update s.mem.words page (s.mem.words source) } }

end PtState

/-- The pages and tables, and the ends of the heaps; a heap starts at 0. -/
structure PagingState where
  pts : PtState
  heapEnd : ℕ → BitVec 64

inductive PagingStep
  | sbrk (d : ℕ) (size : BitVec 64)
  /-- `vmmap(pd, va, zero_page, PTE_RO | PTE_USER_DATA)` -/
  | mapZero (d : ℕ) (va : BitVec 64)
  | fault (d : ℕ) (addr iss : BitVec 64)
  /-- the process stores a word to a page that it may write -/
  | store (d : ℕ) (addr : BitVec 64) (v : BitVec 64)

namespace PagingState

/-- `sbrk` -/
def sbrk (s : PagingState) (d : ℕ) (size : BitVec 64) : BitVec 64 × PagingState :=
  if size.srem 4096#64 ≠ 0 then (-1, s)
  else
    let ret := s.heapEnd d
    let new := ret + size
    let heapEnd := Function.update s.heapEnd d new
    if size.slt 0 then
      let pages := ((pageBase ret).toNat - (pageBase new).toNat) / 4096
      (ret, { heapEnd := heapEnd, pts := s.pts.freeRange d pages (pageBase new) })
    else (ret, { s with heapEnd := heapEnd })

/-- `pgfault_handler`; `none` outside the heap, where it panics. -/
def pgfaultHandler (s : PagingState) (d : ℕ) (addr iss : BitVec 64) : Option PagingState :=
  if addr < s.heapEnd d then
    match s.pts.mem.kallocPage with
    | none => none
    | some (page, m) =>
      match PtState.getPte { s.pts with mem := m } d addr true with
      | some (t, some pte) =>
        let e := t.mem.words pte.1 pte.2
        let t :=
          if pteFlags e &&& pteRo ≠ 0 ∧ iss &&& 0x2#64 ≠ 0 then
            -- copy on write
            let originalPage := p2k (pteAddress e)
            let t := t.copyPage page originalPage
            { t with mem := t.mem.kfreePage originalPage }
          else t
        (t.vmmap d (pageBase addr) page pteUserData).map fun t =>
          { s with pts := { t with mem := t.mem.kfreePage page } }
      | _ => none
  else none

/-- The entry of an address. -/
abbrev entry (s : PagingState) (d : ℕ) (va : BitVec 64) : BitVec 64 := s.pts.entry d va

/-- The faults that the MMU raises: there is no valid entry, or a write to a read-only page. -/
def Raises (s : PagingState) (d : ℕ) (addr iss : BitVec 64) : Prop :=
  s.entry d addr &&& pteValid = 0 ∨ (s.entry d addr &&& pteRo ≠ 0 ∧ iss &&& 0x2#64 ≠ 0)

instance (s : PagingState) (d : ℕ) (addr iss : BitVec 64) : Decidable (s.Raises d addr iss) :=
  inferInstanceAs (Decidable (_ ∨ _))

/-- One of `m` processes does something. -/
def step (m : ℕ) (s : PagingState) : PagingStep → Option PagingState
  | .sbrk d size => if d < m then some (s.sbrk d size).2 else none
  | .mapZero d va =>
    if d < m ∧ pageBase va = va ∧ va < s.heapEnd d ∧ s.entry d va &&& pteValid = 0 then
      (s.pts.vmmap d va s.pts.mem.zero (pteRo ||| pteUserData)).map fun t => { s with pts := t }
    else none
  | .fault d addr iss =>
    if d < m ∧ s.Raises d addr iss then s.pgfaultHandler d addr iss else none
  | .store d addr v =>
    if d < m ∧ s.entry d addr &&& pteValid ≠ 0 ∧ s.entry d addr &&& pteRo = 0 then
      let word : PtePtr := (p2k (pteAddress (s.entry d addr)), Fin.ofNat 512 (addr.toNat / 8))
      some { s with pts := s.pts.writePte word v }
    else none

/-- `sbrk` stays between the start of the heap and the end of the addresses. -/
def InRange (s : PagingState) : PagingStep → Prop
  | .sbrk d size => 0 ≤ (s.heapEnd d).toNat + size.toInt ∧
      (s.heapEnd d).toNat + size.toInt < 2 ^ 64
  | _ => True

instance (s : PagingState) (l : PagingStep) : Decidable (s.InRange l) := by
  unfold InRange
  split <;> infer_instance

/-- The directories of `m` processes with empty root tables, empty heaps, and the zero page;
`pool` are the pages of `kalloc_page`. -/
structure Start (pool : List Addr) (s : PagingState) : Prop where
  fresh : s.pts.Fresh
  free : s.pts.mem.free = pool
  ref : ∀ p ∈ pool, s.pts.mem.ref (pageIndex p) = 0
  root : ∀ d, s.pts.pt d ≠ 0 → s.pts.mem.ref (pageIndex (s.pts.pt d)) = 1 ∧
    s.pts.pt d ≠ s.pts.mem.zero
  zero : ValidPage s.pts.mem.zero ∧ s.pts.mem.zero ∉ pool ∧
    s.pts.mem.ref (pageIndex s.pts.mem.zero) = 1 ∧ ∀ i, s.pts.mem.words s.pts.mem.zero i = 0
  heap : ∀ d, s.heapEnd d = 0

end PagingState

def pagingSystem (pool : List Addr) (m : ℕ) : System PagingState PagingStep where
  init := PagingState.Start pool
  step := PagingState.step m

/-! ### Who maps what -/

/-- A page of one of `m` directories. -/
abbrev PageSlot (m : ℕ) := Fin m × Fin (2 ^ 36)

/-- The first address of a page. -/
def vaOf (n : ℕ) : BitVec 64 := BitVec.ofNat 64 (n * 2 ^ 12)

/-- The page that a valid entry maps. -/
def mapped (e : BitVec 64) : Option Addr :=
  if e &&& pteValid ≠ 0 then some (p2k (pteAddress e)) else none

/-- The page that is mapped in each slot. -/
def PtState.view (m : ℕ) (s : PtState) (x : PageSlot m) : Option Addr :=
  mapped (s.entry x.1 (vaOf x.2))

/-- The entry that maps a page for the user. -/
abbrev dataEntry (p : Addr) : BitVec 64 := k2p p ||| pteUserData ||| pteTable

/-- The entry that maps a page read-only. -/
abbrev roEntry (p : Addr) : BitVec 64 := k2p p ||| (pteRo ||| pteUserData) ||| pteTable

theorem mapped_zero : mapped 0 = none := by
  decide

/-- An entry with the bits of `PTE_TABLE` maps its page. -/
theorem mapped_entry {p : Addr} (hp : ValidPage p) {flags : BitVec 64}
    (hflags : pteAddress flags = 0) : mapped (k2p p ||| flags ||| pteTable) = some p := by
  have hvalid : (k2p p ||| flags ||| pteTable) &&& pteValid ≠ 0 := by
    intro h
    have hbit : ((k2p p ||| flags ||| pteTable) &&& pteValid)[0] = false := by rw [h]; rfl
    rw [BitVec.getElem_and, BitVec.getElem_or, show pteTable[0] = true from rfl,
      show pteValid[0] = true from rfl, Bool.or_true] at hbit
    cases hbit
  have hall : pteAddress (flags ||| pteTable) = 0 := by
    rw [pteAddress_or, hflags]
    rfl
  unfold mapped
  rw [if_pos hvalid, BitVec.or_assoc, hp.p2k_entry hall]

theorem mapped_dataEntry {p : Addr} (hp : ValidPage p) : mapped (dataEntry p) = some p :=
  mapped_entry hp (by decide)

theorem mapped_roEntry {p : Addr} (hp : ValidPage p) : mapped (roEntry p) = some p :=
  mapped_entry hp (by decide)

/-- The flags of an entry that `vmmap` has written. -/
theorem flags_vmmap {p : Addr} (hp : ValidPage p) {flags : BitVec 64} (hflags : pteAddress flags = 0) :
    pteFlags (k2p p ||| flags ||| pteTable) = flags ||| pteTable := by
  have hall : pteAddress (flags ||| pteTable) = 0 := by
    rw [pteAddress_or, hflags]
    rfl
  rw [BitVec.or_assoc, hp.flags_entry hall]

theorem flags_and_ro (e : BitVec 64) : pteFlags e &&& pteRo = e &&& pteRo := by
  unfold pteFlags
  rw [BitVec.and_assoc]
  rfl

theorem roEntry_ro {p : Addr} (hp : ValidPage p) : roEntry p &&& pteRo ≠ 0 := by
  rw [← flags_and_ro, flags_vmmap hp (by decide)]
  decide

theorem dataEntry_ro {p : Addr} (hp : ValidPage p) : dataEntry p &&& pteRo = 0 := by
  rw [← flags_and_ro, flags_vmmap hp (by decide)]
  decide

theorem pageBase_toNat (a : BitVec 64) : (pageBase a).toNat = a.toNat / 4096 * 4096 := by
  have hmask : ∀ i : Fin 64, (~~~0xFFF#64).getLsbD i = decide (12 ≤ i.val) := by decide
  have hshift : pageBase a = (a >>> 12) <<< 12 := by
    refine BitVec.eq_of_getLsbD_eq fun i hi => ?_
    unfold pageBase
    rw [BitVec.getLsbD_and, hmask ⟨i, hi⟩, BitVec.getLsbD_shiftLeft, BitVec.getLsbD_ushiftRight]
    by_cases hle : 12 ≤ i
    · have hlt : ¬i < 12 := Nat.not_lt.mpr hle
      simp [hi, hlt, hle]
    · have hlt : i < 12 := Nat.not_le.mp hle
      simp [hlt, hle]
  have hlt := a.isLt
  rw [hshift, BitVec.toNat_shiftLeft, BitVec.toNat_ushiftRight, Nat.shiftRight_eq_div_pow,
    Nat.shiftLeft_eq]
  omega

theorem sbrk_end {ret size : BitVec 64} (hsize : size.srem 4096#64 = 0)
    (hlow : 0 ≤ ret.toNat + size.toInt) (hhigh : ret.toNat + size.toInt < 2 ^ 64) :
    ((ret + size).toNat : ℤ) = ret.toNat + size.toInt ∧ (4096 : ℤ) ∣ size.toInt := by
  constructor
  · have hr := ret.isLt
    have hs := size.isLt
    rw [BitVec.toInt_eq_toNat_cond] at hlow hhigh ⊢
    rw [BitVec.toNat_add]
    split at hlow <;> rename_i hc <;> simp only [hc, if_true, if_false] at hhigh ⊢ <;> omega
  · have hint := congrArg BitVec.toInt hsize
    rw [BitVec.toInt_srem] at hint
    exact Int.dvd_of_tmod_eq_zero hint
theorem vpn_lt (va : BitVec 64) : vpn va < 2 ^ 36 := Nat.mod_lt _ (by decide)

theorem vpn_vaOf {n : ℕ} (hn : n < 2 ^ 36) : vpn (vaOf n) = n := by
  unfold vpn vaOf
  rw [BitVec.toNat_ofNat]
  omega

namespace PtState

variable {m : ℕ} {pool : List Addr} {held : Addr → ℤ} {s t : PtState} {d : ℕ} {p : Addr}

/-- The page is no table. -/
def Plain (s : PtState) (p : Addr) : Prop := ∀ d r, s.node d r ≠ p

/-- The counts of the pages: entries, and what is held besides. -/
structure Counts (m : ℕ) (pool : List Addr) (held : Addr → ℤ) (s : PtState) : Prop where
  tables : s.Tables
  valid_pool : ∀ p ∈ pool, ValidPage p
  freePool : ∀ p ∈ s.mem.free, p ∈ pool
  zeroPage : ValidPage s.mem.zero ∧ s.mem.zero ∉ pool ∧ s.Plain s.mem.zero
  zeroWords : ∀ i, s.mem.words s.mem.zero i = 0
  /-- an entry is empty, or maps the zero page read-only, or a page of its own -/
  shape : ∀ d va, s.entry d va = 0 ∨ d < m ∧ (s.entry d va = roEntry s.mem.zero ∨
    ∃ p ∈ pool, s.Plain p ∧ s.entry d va = dataEntry p)
  ref : ∀ p, p ∈ pool ∨ p = s.mem.zero → s.Plain p →
    s.mem.ref (pageIndex p) = uses (s.view m) p + held p
  free_iff : ∀ p ∈ pool, s.Plain p → (p ∈ s.mem.free ↔ s.mem.ref (pageIndex p) = 0)
  once : ∀ p ∈ pool, uses (s.view m) p ≤ 1
  tableRef : ∀ d r, s.node d r ≠ 0 → s.mem.ref (pageIndex (s.node d r)) = 1

/-- Words outside the tables do not matter for the tables. -/
theorem node_of_words (hpt : t.pt = s.pt)
    (hwords : ∀ e q, s.node e q ≠ 0 → t.mem.words (s.node e q) = s.mem.words (s.node e q))
    (e : ℕ) (q : List PtIndex) : t.node e q = s.node e q := by
  refine Radix.node_congr hpt (fun e q i hq _ => ?_) e q
  exact congrFun (hwords e q hq) i

theorem entry_of_words (hs : s.Tables) (ht : t.Tables) (hpt : t.pt = s.pt)
    (hwords : ∀ e q, s.node e q ≠ 0 → t.mem.words (s.node e q) = s.mem.words (s.node e q))
    (e : ℕ) (va : BitVec 64) : t.entry e va = s.entry e va := by
  rw [entry_eq hs, entry_eq ht]
  exact Radix.slot_congr (node_of_words hpt hwords e _) fun hne => congrFun (hwords e _ hne) _

/-- Addresses of one page have one entry. -/
theorem entry_congr (hs : s.Tables) {va va' : BitVec 64} (h : vpn va = vpn va') :
    s.entry d va = s.entry d va' := by
  rw [entry_eq hs, entry_eq hs, ((vpn_eq_iff va va').mp h).1, ((vpn_eq_iff va va').mp h).2]

theorem view_slot (hs : s.Tables) (hd : d < m) (va : BitVec 64) :
    s.view m (⟨d, hd⟩, ⟨vpn va, vpn_lt va⟩) = mapped (s.entry d va) := by
  unfold view
  rw [entry_congr hs (vpn_vaOf (vpn_lt va))]

theorem view_congr (h : ∀ e va, t.entry e va = s.entry e va) : t.view m = s.view m := by
  funext x
  unfold view
  rw [h]

namespace Counts

theorem zero_ne (h : Counts m pool held s) (hp : p ∈ pool) : p ≠ s.mem.zero := by
  rintro rfl
  exact h.zeroPage.2.1 hp

theorem valid (h : Counts m pool held s) (hp : p ∈ pool ∨ p = s.mem.zero) : ValidPage p := by
  rcases hp with hp | rfl
  · exact h.valid_pool p hp
  · exact h.zeroPage.1

/-- An entry that is not valid is empty. -/
theorem entry_zero (h : Counts m pool held s) {va : BitVec 64}
    (hinvalid : s.entry d va &&& pteValid = 0) : s.entry d va = 0 := by
  have hno : mapped (s.entry d va) = none := if_neg fun hne => hne hinvalid
  rcases h.shape d va with h0 | ⟨-, hro | ⟨p, hp, -, hdata⟩⟩
  · exact h0
  · rw [hro, mapped_roEntry h.zeroPage.1] at hno
    cases hno
  · rw [hdata, mapped_dataEntry (h.valid_pool p hp)] at hno
    cases hno

/-- A free page is no table. -/
theorem plain_of_free (h : Counts m pool held s) (hp : p ∈ s.mem.free) : s.Plain p := by
  rintro e q rfl
  exact h.tables.apart e q (h.tables.pages _ hp).ne_zero hp

/-- A page that is mapped is not free, unless more than its entries has been let go. -/
theorem not_free (h : Counts m pool held s) (hp : p ∈ pool) (hplain : s.Plain p)
    (hheld : 0 ≤ held p) {x : PageSlot m} (hx : s.view m x = some p) : p ∉ s.mem.free := by
  rw [h.free_iff p hp hplain, h.ref p (.inl hp) hplain]
  have hpos : uses (s.view m) p ≠ 0 := fun hzero => uses_eq_zero.mp hzero x hx
  omega

/-- A walk changes no count of a page that is mapped. -/
theorem walked {path : List PtIndex} (h : Counts m pool held s) (hheld : ∀ p ∈ pool, 0 ≤ held p)
    (ht : t.Tables) (hw : Walked s t d path) : Counts m pool held t := by
  have hentry := hw.entry h.tables ht
  have hsub := hw.free.subset
  have hplain : ∀ {p}, p ∉ s.mem.free → s.Plain p → t.Plain p := fun hp hs => hw.node_ne hp hs
  -- a page that is no table has been none, and is free as before
  have hback : ∀ {p}, p ∈ pool ∨ p = s.mem.zero → t.Plain p →
      s.Plain p ∧ (p ∈ s.mem.free → p ∈ t.mem.free) := by
    intro p hp htp
    constructor
    · rintro e q rfl
      exact htp e q (hw.tables.keep e q (h.valid hp).ne_zero)
    · intro hfree
      by_contra hnot
      obtain ⟨q, hq⟩ := hw.used p hfree hnot
      exact htp d q hq
  have href : ∀ {p}, p ∈ pool ∨ p = s.mem.zero → t.Plain p →
      t.mem.ref (pageIndex p) = s.mem.ref (pageIndex p) := by
    intro p hp htp
    refine hw.ref _ fun q hq hqt heq => ?_
    obtain rfl := (h.tables.pages q hq).index_inj (h.valid hp) heq
    exact hqt ((hback hp htp).2 hq)
  have hzero : s.mem.zero ∉ s.mem.free := fun hz => h.zeroPage.2.1 (h.freePool _ hz)
  refine ⟨ht, h.valid_pool, fun p hp => h.freePool p (hsub hp), ?_, ?_, ?_, ?_, ?_, ?_, ?_⟩
  · rw [hw.zero]
    exact ⟨h.zeroPage.1, h.zeroPage.2.1, hplain hzero h.zeroPage.2.2⟩
  · rw [hw.zero, hw.data _ hzero h.zeroPage.2.2]
    exact h.zeroWords
  · intro e va
    rw [hw.zero, hentry]
    rcases h.shape e va with h0 | ⟨he, hro | ⟨p, hp, hps, hdata⟩⟩
    · exact .inl h0
    · exact .inr ⟨he, .inl hro⟩
    · have hview := view_slot h.tables he va
      rw [hdata, mapped_dataEntry (h.valid_pool p hp)] at hview
      have hfree := h.not_free hp hps (hheld p hp) hview
      exact .inr ⟨he, .inr ⟨p, hp, hplain hfree hps, hdata⟩⟩
  · intro p hp htp
    rw [hw.zero] at hp
    rw [href hp htp, view_congr hentry]
    exact h.ref p hp (hback hp htp).1
  · intro p hp htp
    obtain ⟨hps, hfree⟩ := hback (.inl hp) htp
    rw [href (.inl hp) htp, ← h.free_iff p hp hps]
    exact ⟨fun hin => hsub hin, hfree⟩
  · rw [view_congr hentry]
    exact h.once
  · intro e q hq
    by_cases hqs : s.node e q = 0
    · have hin := hw.fresh e q hqs hq
      exact hw.count _ hin (ht.apart e q hq)
    · have hkeep : t.node e q = s.node e q := hw.tables.keep e q hqs
      rw [hkeep, hw.ref]
      · exact h.tableRef e q hqs
      · intro p hp hpt heq
        obtain rfl := (h.tables.pages p hp).index_inj (h.tables.valid e q hqs) heq
        exact h.tables.apart e q hqs hp

/-- One page that is no table changes: its words, its count, or whether it is free. -/
structure PageStep (s : PtState) (q : Addr) (mem : PageMem) : Prop where
  zero : mem.zero = s.mem.zero
  words : ∀ x, x ≠ q → mem.words x = s.mem.words x
  /-- the zero page keeps its words -/
  zeroWords : q = s.mem.zero → mem.words q = s.mem.words q
  ref : ∀ n, n ≠ pageIndex q → mem.ref n = s.mem.ref n
  free : ∀ x, x ≠ q → (x ∈ mem.free ↔ x ∈ s.mem.free)
  nodup : mem.free.Nodup
  free_self : q ∈ mem.free → q ≠ s.mem.zero
  free_iff : q ≠ s.mem.zero → (q ∈ mem.free ↔ mem.ref (pageIndex q) = 0)

/-- The other counts stay, and no entry changes. -/
theorem page_step {q : Addr} {mem : PageMem} (h : Counts m pool held s)
    (hq : q ∈ pool ∨ q = s.mem.zero) (hqs : s.Plain q) (hm : PageStep s q mem) :
    let t : PtState := { s with mem := mem }
    Counts m pool (Function.update held q (mem.ref (pageIndex q) - uses (s.view m) q)) t ∧
      (∀ e r, t.node e r = s.node e r) ∧ ∀ e va, t.entry e va = s.entry e va := by
  intro t
  have hvalid := h.valid hq
  have hw : ∀ e r, s.node e r ≠ 0 → t.mem.words (s.node e r) = s.mem.words (s.node e r) :=
    fun e r _ => hm.words _ (hqs e r)
  have hnode : ∀ e r, t.node e r = s.node e r := node_of_words rfl hw
  have hplain : ∀ {x}, t.Plain x ↔ s.Plain x := by
    intro x
    unfold Plain
    simp only [hnode]
  have htzero : t.mem.zero = s.mem.zero := hm.zero
  have hpool : ∀ x ∈ t.mem.free, x ∈ pool := by
    intro x hx
    by_cases hxq : x = q
    · subst hxq
      exact hq.resolve_right (hm.free_self hx)
    · exact h.freePool x ((hm.free x hxq).mp hx)
  have htables : t.Tables := by
    refine ⟨?_, ?_, ?_, fun x hx => h.valid_pool x (hpool x hx), hm.nodup⟩
    · intro e r e' r' hne heq
      have hne' : t.node e r ≠ 0 := hne
      have heq' : t.node e r = t.node e' r' := heq
      rw [hnode] at hne'
      rw [hnode, hnode] at heq'
      exact h.tables.separate e r e' r' hne' heq'
    · intro e r hne hx
      rw [hnode] at hne hx
      exact h.tables.apart e r hne ((hm.free _ (hqs e r)).mp hx)
    · intro e r hne
      rw [hnode] at hne ⊢
      exact h.tables.valid e r hne
  have hentry : ∀ e va, t.entry e va = s.entry e va := entry_of_words h.tables htables rfl hw
  have hview : t.view m = s.view m := view_congr hentry
  have hother : ∀ {x}, ValidPage x → x ≠ q → t.mem.ref (pageIndex x) = s.mem.ref (pageIndex x) :=
    fun hx hne => hm.ref _ fun heq => hne (hx.index_inj hvalid heq)
  refine ⟨⟨htables, h.valid_pool, hpool, ?_, ?_, ?_, ?_, ?_, ?_, ?_⟩, hnode, hentry⟩
  · rw [htzero]
    exact ⟨h.zeroPage.1, h.zeroPage.2.1, hplain.mpr h.zeroPage.2.2⟩
  · intro i
    rw [htzero, show t.mem.words s.mem.zero = s.mem.words s.mem.zero from ?_]
    · exact h.zeroWords i
    · by_cases hqz : s.mem.zero = q
      · rw [hqz]
        exact hm.zeroWords hqz.symm
      · exact hm.words _ hqz
  · intro e va
    rw [htzero, hentry]
    refine (h.shape e va).imp_right fun hand => ⟨hand.1, hand.2.imp_right ?_⟩
    rintro ⟨x, hx, hxs, hdata⟩
    exact ⟨x, hx, hplain.mpr hxs, hdata⟩
  · intro x hx hxt
    rw [htzero] at hx
    rw [hview]
    by_cases hxq : x = q
    · rw [hxq, Function.update_self]
      show mem.ref _ = _
      omega
    · rw [hother (h.valid hx) hxq, Function.update_of_ne hxq]
      exact h.ref x hx (hplain.mp hxt)
  · intro x hx hxt
    by_cases hxq : x = q
    · subst hxq
      exact hm.free_iff (h.zero_ne hx)
    · rw [hother (h.valid_pool x hx) hxq, ← h.free_iff x hx (hplain.mp hxt)]
      exact hm.free x hxq
  · rw [hview]
    exact h.once
  · intro e r hne
    rw [hnode] at hne ⊢
    rw [hother (h.tables.valid e r hne) (hqs e r)]
    exact h.tableRef e r hne

/-- A page is taken from the list; it is held now. -/
theorem alloc {mem : PageMem} (h : Counts m pool held s) (hpage : s.mem.kallocPage = some (p, mem))
    (hheld : held p = 0) :
    let t : PtState := { s with mem := mem }
    Counts m pool (Function.update held p 1) t ∧ p ∈ pool ∧ t.Plain p ∧ p ∉ t.mem.free ∧
      uses (t.view m) p = 0 ∧ (∀ i, t.mem.words p i = 0) ∧ ∀ e va, t.entry e va = s.entry e va := by
  intro t
  obtain ⟨hfree, hwords, href, hzero⟩ := PageMem.kallocPage_eq hpage
  have hin : p ∈ s.mem.free := by rw [hfree]; exact List.mem_cons_self
  have hpool := h.freePool p hin
  have hps := h.plain_of_free hin
  have hnodup := h.tables.nodup
  rw [hfree] at hnodup
  obtain ⟨hnot, hnodup⟩ := List.nodup_cons.mp hnodup
  have hself : mem.ref (pageIndex p) = 1 := by rw [href, Function.update_self]
  have huses : uses (s.view m) p = 0 := by
    have hzero' := (h.free_iff p hpool hps).mp hin
    rw [h.ref p (.inl hpool) hps, hheld] at hzero'
    omega
  have hstep : PageStep s p mem := by
    refine ⟨hzero, fun x hx => ?_, fun hpz => (h.zero_ne hpool hpz).elim, fun n hn => ?_,
      fun x hx => ?_, hnodup, fun hp => (hnot hp).elim, fun _ => ?_⟩
    · rw [hwords, Function.update_of_ne hx]
    · rw [href, Function.update_of_ne hn]
    · rw [hfree, List.mem_cons]
      exact (or_iff_right hx).symm
    · rw [hself]
      exact ⟨fun hp => (hnot hp).elim, fun h1 => by cases h1⟩
  obtain ⟨hcounts, hnode, hentry⟩ := h.page_step (.inl hpool) hps hstep
  rw [hself, huses] at hcounts
  refine ⟨hcounts, hpool, fun e r => ?_, hnot, ?_, fun i => ?_, hentry⟩
  · rw [hnode]
    exact hps e r
  · rw [view_congr hentry]
    exact huses
  · show mem.words p i = 0
    rw [hwords, Function.update_self]

/-- `ref_page` of a page in use. -/
theorem refPage (h : Counts m pool held s) (hp : p ∈ pool ∨ p = s.mem.zero) (hps : s.Plain p)
    (hfree : p ∉ s.mem.free) (hpos : 0 ≤ s.mem.ref (pageIndex p)) :
    let t : PtState := { s with mem := s.mem.refPage p }
    Counts m pool (Function.update held p (held p + 1)) t ∧ (∀ e r, t.node e r = s.node e r) ∧
      ∀ e va, t.entry e va = s.entry e va := by
  have href := h.ref p hp hps
  have hself : (s.mem.refPage p).ref (pageIndex p) = s.mem.ref (pageIndex p) + 1 :=
    Function.update_self _ _ _
  have hstep : PageStep s p (s.mem.refPage p) := by
    refine ⟨rfl, fun _ _ => rfl, fun _ => rfl, fun n hn => Function.update_of_ne hn _ _,
      fun _ _ => Iff.rfl, h.tables.nodup, fun hin => (hfree hin).elim, fun _ => ?_⟩
    rw [hself]
    refine ⟨fun hin => (hfree hin).elim, fun hzero => ?_⟩
    omega
  have hcounts := h.page_step hp hps hstep
  rwa [hself, href, show (uses (s.view m) p : ℤ) + held p + 1 - uses (s.view m) p = held p + 1 by
    omega] at hcounts

/-- `kfree_page` of a page in use. -/
theorem kfreePage (h : Counts m pool held s) (hp : p ∈ pool ∨ p = s.mem.zero) (hps : s.Plain p)
    (hfree : p ∉ s.mem.free) :
    let t : PtState := { s with mem := s.mem.kfreePage p }
    Counts m pool (Function.update held p (held p - 1)) t ∧ (∀ e r, t.node e r = s.node e r) ∧
      ∀ e va, t.entry e va = s.entry e va := by
  have href := h.ref p hp hps
  have hself : (s.mem.kfreePage p).ref (pageIndex p) = s.mem.ref (pageIndex p) - 1 := by
    unfold PageMem.kfreePage
    simp only
    split <;> exact Function.update_self _ _ _
  have hstep : PageStep s p (s.mem.kfreePage p) := by
    unfold PageMem.kfreePage at hself ⊢
    simp only at hself ⊢
    split
    · rename_i hlast
      refine ⟨rfl, fun x hx => Function.update_of_ne hx _ _, fun hpz => (hlast.2 hpz).elim,
        fun n hn => Function.update_of_ne hn _ _, fun x hx => ?_,
        List.nodup_cons.mpr ⟨hfree, h.tables.nodup⟩, fun _ => hlast.2, fun _ => ?_⟩
      · show x ∈ p :: s.mem.free ↔ _
        rw [List.mem_cons]
        exact or_iff_right hx
      · exact ⟨fun _ => hlast.1, fun _ => List.mem_cons_self⟩
    · rename_i hmore
      refine ⟨rfl, fun _ _ => rfl, fun _ => rfl, fun n hn => Function.update_of_ne hn _ _,
        fun _ _ => Iff.rfl, h.tables.nodup, fun hin => (hfree hin).elim, fun hpz => ?_⟩
      exact ⟨fun hin => (hfree hin).elim, fun hzero => (hmore ⟨hzero, hpz⟩).elim⟩
  have hcounts := h.page_step hp hps hstep
  rwa [hself, href, show (uses (s.view m) p : ℤ) + held p - 1 - uses (s.view m) p = held p - 1 by
    omega] at hcounts

/-- A store into a page of the pool that is in use. -/
theorem write_words {w : PageData} (h : Counts m pool held s) (hp : p ∈ pool) (hps : s.Plain p)
    (hfree : p ∉ s.mem.free) :
    let t : PtState := { s with mem := { s.mem with words := Function.update s.mem.words p w } }
    Counts m pool held t ∧ (∀ e r, t.node e r = s.node e r) ∧
      ∀ e va, t.entry e va = s.entry e va := by
  have hstep : PageStep s p { s.mem with words := Function.update s.mem.words p w } :=
    ⟨rfl, fun x hx => Function.update_of_ne hx _ _, fun hpz => (h.zero_ne hp hpz).elim,
      fun _ _ => rfl, fun _ _ => Iff.rfl, h.tables.nodup, fun hin => (hfree hin).elim,
      fun _ => h.free_iff p hp hps⟩
  have hcounts := h.page_step (.inl hp) hps hstep
  rwa [show s.mem.ref (pageIndex p) - (uses (s.view m) p : ℤ) = held p by
    rw [h.ref p (.inl hp) hps]; omega, Function.update_eq_self] at hcounts

/-- A store to the entry of an address: the page that it has mapped is held instead, and the
page that it maps is held once less. -/
theorem writePte {va : BitVec 64} {v : BitVec 64} (h : Counts m pool held s) (hd : d < m)
    (hr : s.node d (tablePath va) ≠ 0)
    (hv : v = 0 ∨ v = roEntry s.mem.zero ∨ ∃ p ∈ pool, s.Plain p ∧ v = dataEntry p)
    (honce : ∀ p ∈ pool, mapped v = some p → uses (s.view m) p = 0) :
    Counts m pool (fun p => held p + (if mapped (s.entry d va) = some p then 1 else 0) -
        if mapped v = some p then 1 else 0)
      (s.writePte (s.node d (tablePath va), pdIndex va 12) v) := by
  set t := s.writePte (s.node d (tablePath va), pdIndex va 12) v with ht
  have htables : t.Tables := h.tables.writePte hr rfl v
  have hnode : ∀ e q, t.node e q = s.node e q := writePte_node h.tables hr rfl v
  have hplain : ∀ {x}, t.Plain x ↔ s.Plain x := by
    intro x
    unfold Plain
    simp only [hnode]
  have hentry : ∀ e va', t.entry e va' = if e = d ∧ vpn va' = vpn va then v else s.entry e va' :=
    writePte_entry h.tables hr v
  have hzero : t.mem.zero = s.mem.zero := writePte_zero _ _ _
  have hzeroWords : t.mem.words s.mem.zero = s.mem.words s.mem.zero :=
    writePte_data s _ v (h.zeroPage.2.2 d _).symm
  -- one slot of the view changes
  have hview : t.view m = Function.update (s.view m) (⟨d, hd⟩, ⟨vpn va, vpn_lt va⟩) (mapped v) := by
    funext x
    by_cases hx : x = (⟨d, hd⟩, ⟨vpn va, vpn_lt va⟩)
    · subst hx
      rw [Function.update_self, view_slot htables hd, hentry, if_pos ⟨rfl, rfl⟩]
    · rw [Function.update_of_ne hx]
      unfold view
      rw [hentry, if_neg]
      rintro ⟨hxd, hxv⟩
      rw [vpn_vaOf x.2.isLt] at hxv
      exact hx (Prod.ext (Fin.ext hxd) (Fin.ext hxv))
  have huses : ∀ p, uses (t.view m) p + (if mapped (s.entry d va) = some p then 1 else 0) =
      uses (s.view m) p + if mapped v = some p then 1 else 0 := by
    intro p
    rw [hview, ← view_slot h.tables hd va]
    exact uses_update _ _ _ p
  refine ⟨htables, h.valid_pool, h.freePool, ?_, ?_, ?_, ?_, ?_, ?_, ?_⟩
  · rw [hzero]
    exact ⟨h.zeroPage.1, h.zeroPage.2.1, hplain.mpr h.zeroPage.2.2⟩
  · rw [hzero, hzeroWords]
    exact h.zeroWords
  · intro e va'
    rw [hentry, hzero]
    split
    · rename_i hsame
      rcases hv with hv | hv | ⟨p, hp, hps, hv⟩
      · exact .inl hv
      · exact .inr ⟨hsame.1 ▸ hd, .inl hv⟩
      · exact .inr ⟨hsame.1 ▸ hd, .inr ⟨p, hp, hplain.mpr hps, hv⟩⟩
    · refine (h.shape e va').imp_right fun hand => ⟨hand.1, hand.2.imp_right ?_⟩
      rintro ⟨x, hx, hxs, hdata⟩
      exact ⟨x, hx, hplain.mpr hxs, hdata⟩
  · intro p hp hpt
    rw [hzero] at hp
    have href := h.ref p hp (hplain.mp hpt)
    have hu := huses p
    rw [ht, writePte_ref, href, ← ht]
    by_cases hold : mapped (s.entry d va) = some p <;> by_cases hnew : mapped v = some p <;>
      simp only [hold, hnew, if_true, if_false] at hu ⊢ <;> omega
  · intro p hp hpt
    exact h.free_iff p hp (hplain.mp hpt)
  · intro p hp
    have hu := huses p
    have hone := h.once p hp
    by_cases hvp : mapped v = some p
    · rw [honce p hp hvp, if_pos hvp] at hu
      omega
    · rw [if_neg hvp] at hu
      omega
  · intro e q hne
    rw [hnode] at hne ⊢
    exact h.tableRef e q hne

/-- `vmmap` of the zero page, or of a page that is held and not yet mapped. -/
theorem vmmap {va : BitVec 64} {ka : Addr} {flags : BitVec 64} (h : Counts m pool held s)
    (hheld : ∀ p ∈ pool, 0 ≤ held p) (hd : d < m) (hs : s.vmmap d va ka flags = some t)
    (hka : ka = s.mem.zero ∧ flags = (pteRo ||| pteUserData) ∨
      ka ∈ pool ∧ s.Plain ka ∧ ka ∉ s.mem.free ∧ uses (s.view m) ka = 0 ∧ flags = pteUserData)
    (hpos : 0 ≤ held ka) :
    Counts m pool (fun p => held p + if mapped (s.entry d va) = some p then 1 else 0) t ∧
      t.mem.zero = s.mem.zero ∧
      (∀ e va', t.entry e va' =
        if e = d ∧ vpn va' = vpn va then k2p ka ||| flags ||| pteTable else s.entry e va') ∧
      ∀ p, p ∉ s.mem.free → s.Plain p → t.mem.words p = s.mem.words p := by
  obtain ⟨u, hu, hwalked, hne, ht⟩ := vmmap_spec h.tables hs
  have hcu := h.walked hheld hu hwalked
  have huentry := hwalked.entry h.tables hu
  have huview : u.view m = s.view m := view_congr huentry
  have hkaPool : ka ∈ pool ∨ ka = s.mem.zero := hka.elim (fun hz => .inr hz.1) fun hp => .inl hp.1
  have hkaFree : ka ∉ s.mem.free := by
    rcases hka with ⟨rfl, -⟩ | hp
    · exact fun hin => h.zeroPage.2.1 (h.freePool _ hin)
    · exact hp.2.2.1
  have hkaPlain : s.Plain ka := by
    rcases hka with ⟨rfl, -⟩ | hp
    · exact h.zeroPage.2.2
    · exact hp.2.1
  have hkau : u.Plain ka := hwalked.node_ne hkaFree hkaPlain
  have hmapped : mapped (k2p ka ||| flags ||| pteTable) = some ka := by
    rcases hka with ⟨rfl, rfl⟩ | ⟨hp, -, -, -, rfl⟩
    · exact mapped_roEntry h.zeroPage.1
    · exact mapped_dataEntry (h.valid_pool _ hp)
  -- the store to the entry, and then the reference
  have hcw := hcu.writePte (v := k2p ka ||| flags ||| pteTable) hd hne
    (by
      rw [hwalked.zero]
      rcases hka with ⟨rfl, rfl⟩ | ⟨hp, -, -, -, rfl⟩
      · exact .inr (.inl rfl)
      · exact .inr (.inr ⟨ka, hp, hkau, rfl⟩))
    (by
      intro p hp hpm
      rw [hmapped] at hpm
      obtain rfl := Option.some.inj hpm
      rw [huview]
      exact (hka.resolve_left fun hz => h.zero_ne hp hz.1).2.2.2.1)
  have hnode := writePte_node hu hne rfl (k2p ka ||| flags ||| pteTable) (i := pdIndex va 12)
  have hzero : (u.writePte (u.node d (tablePath va), pdIndex va 12)
      (k2p ka ||| flags ||| pteTable)).mem.zero = s.mem.zero := hwalked.zero
  have hcr := hcw.refPage (p := ka) (by rw [hzero]; exact hkaPool)
    (fun e r => by rw [hnode]; exact hkau e r) (fun hin => hkaFree (hwalked.free.subset hin))
    (by
      show 0 ≤ u.mem.ref (pageIndex ka)
      rw [hcu.ref ka (by rw [hwalked.zero]; exact hkaPool) hkau]
      omega)
  obtain ⟨hcounts, -, hentry⟩ := hcr
  have ht' : t = { u.writePte (u.node d (tablePath va), pdIndex va 12)
      (k2p ka ||| flags ||| pteTable) with
    mem := (u.writePte (u.node d (tablePath va), pdIndex va 12)
      (k2p ka ||| flags ||| pteTable)).mem.refPage ka } := ht
  rw [← ht'] at hcounts hentry
  refine ⟨?_, ?_, fun e va' => ?_, fun p hp hps => ?_⟩
  · convert hcounts using 1
    funext p
    rw [hmapped, huentry]
    by_cases hpk : p = ka
    · subst hpk
      rw [Function.update_self, if_pos rfl]
      omega
    · rw [Function.update_of_ne hpk, if_neg fun heq => hpk (Option.some.inj heq).symm]
      omega
  · rw [ht]
    exact hzero
  · rw [hentry, writePte_entry hu hne, huentry]
  · have hup := hwalked.node_ne hp hps d (tablePath va)
    rw [← hwalked.data p hp hps, ht', PageMem.refPage_words]
    exact writePte_data u _ _ hup.symm

end Counts

/-- What is held when no call is running: the zero page has a reference of its own. -/
def heldZero (zero : Addr) (p : Addr) : ℤ := if p = zero then 1 else 0

theorem heldZero_nonneg (zero p : Addr) : 0 ≤ heldZero zero p := by
  unfold heldZero
  split <;> decide

namespace Counts

variable {zero : Addr}

/-- The page of an address is let go, and its entry is emptied. -/
theorem freePte (h : Counts m pool (heldZero zero) s) (hzero : s.mem.zero = zero) (hd : d < m)
    (va : BitVec 64) :
    Counts m pool (heldZero zero) (s.freePte d va) ∧ (s.freePte d va).mem.zero = zero ∧
      ∀ e va', (s.freePte d va).entry e va' =
        if e = d ∧ vpn va' = vpn va then 0 else s.entry e va' := by
  obtain ⟨o, ho⟩ := getPte_false s d va
  have hspec := (getPte_spec h.tables ho).2.2.1
  have hempty : s.entry d va = 0 → ∀ e va', s.entry e va' =
      if e = d ∧ vpn va' = vpn va then 0 else s.entry e va' := by
    intro h0 e va'
    split
    · rename_i hsame
      rw [hsame.1, entry_congr h.tables hsame.2, h0]
    · rfl
  unfold PtState.freePte
  rw [ho]
  by_cases hnone : s.node d (tablePath va) = 0
  · rw [hspec, if_pos hnone]
    refine ⟨h, hzero, hempty ?_⟩
    rw [entry_eq h.tables]
    exact if_pos hnone
  · rw [hspec, if_neg hnone]
    have hword : s.mem.words (s.node d (tablePath va)) (pdIndex va 12) = s.entry d va := by
      rw [entry_eq h.tables]
      exact (if_neg hnone).symm
    simp only [hword]
    -- the page that is mapped, if any
    have hpage : s.entry d va = 0 ∨ s.entry d va &&& pteValid ≠ 0 ∧
        ∃ p, mapped (s.entry d va) = some p ∧ (p ∈ pool ∨ p = s.mem.zero) ∧ s.Plain p ∧
          p ∉ s.mem.free := by
      have hvalid : ∀ {p}, mapped (s.entry d va) = some p → s.entry d va &&& pteValid ≠ 0 := by
        intro p hp h0
        unfold mapped at hp
        rw [if_neg fun hne => hne h0] at hp
        cases hp
      rcases h.shape d va with h0 | ⟨-, hro | ⟨p, hp, hps, hdata⟩⟩
      · exact .inl h0
      · have hm := mapped_roEntry h.zeroPage.1
        rw [← hro] at hm
        exact .inr ⟨hvalid hm, _, hm, .inr rfl, h.zeroPage.2.2,
          fun hin => h.zeroPage.2.1 (h.freePool _ hin)⟩
      · have hm := mapped_dataEntry (h.valid_pool p hp)
        rw [← hdata] at hm
        have hview := view_slot h.tables hd va
        rw [hm] at hview
        exact .inr ⟨hvalid hm, p, hm, .inl hp, hps,
          h.not_free hp hps (heldZero_nonneg zero p) hview⟩
    rcases hpage with h0 | ⟨hvalid, p, hm, hp, hps, hfree⟩
    · have hinvalid : ¬s.entry d va &&& pteValid ≠ 0 := by
        rw [h0]
        decide
      rw [if_neg hinvalid]
      exact ⟨h, hzero, hempty h0⟩
    · have hpte : p2k (pteAddress (s.entry d va)) = p := by
        unfold mapped at hm
        rw [if_pos hvalid] at hm
        exact Option.some.inj hm
      rw [if_pos hvalid, hpte]
      obtain ⟨hcounts, hnode, hentry⟩ := h.kfreePage hp hps hfree
      have hne : PtState.node { s with mem := s.mem.kfreePage p } d (tablePath va) ≠ 0 := by
        rw [hnode]
        exact hnone
      have hcw := hcounts.writePte (v := 0) hd hne (.inl rfl) (by
        intro q _ hq
        rw [mapped_zero] at hq
        cases hq)
      have hew := writePte_entry hcounts.tables hne 0
      rw [hnode] at hcw hew
      have hz : (s.mem.kfreePage p).zero = s.mem.zero := by
        unfold PageMem.kfreePage
        simp only
        split <;> rfl
      refine ⟨?_, hz.trans hzero, fun e va' => ?_⟩
      · convert hcw using 1
        funext q
        rw [hentry, hm, mapped_zero]
        by_cases hqp : q = p
        · subst hqp
          rw [Function.update_self, if_pos rfl, if_neg nofun]
          omega
        · rw [Function.update_of_ne hqp, if_neg fun heq => hqp (Option.some.inj heq).symm,
            if_neg nofun]
          omega
      · rw [hew, hentry]

/-- The loop of `sbrk` empties the entries of its pages. -/
theorem freeRange (hd : d < m) : ∀ (n : ℕ) {s : PtState} (start : BitVec 64),
    Counts m pool (heldZero zero) s → s.mem.zero = zero →
    Counts m pool (heldZero zero) (s.freeRange d n start) ∧ (s.freeRange d n start).mem.zero = zero ∧
      ∀ e va', (s.freeRange d n start).entry e va' =
        if e = d ∧ ∃ k < n, vpn va' = vpn (start + BitVec.ofNat 64 (4096 * k)) then 0
        else s.entry e va'
  | 0, s, start => by
    intro h hzero
    refine ⟨h, hzero, fun e va' => ?_⟩
    rw [if_neg]
    · rfl
    · rintro ⟨-, k, hk, -⟩
      exact Nat.not_lt_zero k hk
  | n + 1, s, start => by
    intro h hzero
    obtain ⟨hcounts, hzero', hentry⟩ := h.freePte hzero hd start
    obtain ⟨hcounts', hzero'', hentry'⟩ := freeRange hd n (start + 4096) hcounts hzero'
    refine ⟨hcounts', hzero'', fun e va' => ?_⟩
    have hshift : ∀ k, start + 4096 + BitVec.ofNat 64 (4096 * k) =
        start + BitVec.ofNat 64 (4096 * (k + 1)) := by
      intro k
      rw [Nat.mul_succ, Nat.add_comm (4096 * k), BitVec.ofNat_add, ← BitVec.add_assoc]
      rfl
    show (PtState.freeRange (s.freePte d start) d n (start + 4096)).entry e va' = _
    rw [hentry', hentry]
    simp only [hshift]
    -- the first page, or one of the others
    by_cases hrest : e = d ∧ ∃ k < n, vpn va' = vpn (start + BitVec.ofNat 64 (4096 * (k + 1)))
    · obtain ⟨he, k, hk, hvpn⟩ := hrest
      rw [if_pos ⟨he, k, hk, hvpn⟩, if_pos ⟨he, k + 1, Nat.succ_lt_succ hk, hvpn⟩]
    · rw [if_neg hrest]
      by_cases hfirst : e = d ∧ vpn va' = vpn start
      · rw [if_pos hfirst, if_pos ⟨hfirst.1, 0, Nat.succ_pos n, by
          rw [hfirst.2, Nat.mul_zero]
          congr 1
          exact (BitVec.add_zero start).symm⟩]
      · rw [if_neg hfirst, if_neg]
        rintro ⟨he, k, hk, hvpn⟩
        cases k with
        | zero =>
          refine hfirst ⟨he, hvpn.trans ?_⟩
          rw [Nat.mul_zero]
          congr 1
          exact BitVec.add_zero start
        | succ k => exact hrest ⟨he, k, Nat.lt_of_succ_lt_succ hk, hvpn⟩

end Counts

end PtState

namespace PagingState

variable {m : ℕ} {pool : List Addr} {zero : Addr} {s t : PagingState} {d : ℕ} {addr iss : BitVec 64}

/-- What is read in the page of an address. -/
def readable (s : PagingState) (d : ℕ) (addr : BitVec 64) : PageData :=
  match mapped (s.entry d addr) with
  | some p => s.pts.mem.words p
  | none => fun _ => 0

/-- The counts are right, and nothing is mapped behind the ends of the heaps. -/
structure Inv (m : ℕ) (pool : List Addr) (zero : Addr) (s : PagingState) : Prop where
  counts : PtState.Counts m pool (PtState.heldZero zero) s.pts
  zero_eq : s.pts.mem.zero = zero
  below : ∀ d va, s.entry d va ≠ 0 → vpn va * 4096 < (s.heapEnd d).toNat
  aligned : ∀ d, (s.heapEnd d).toNat % 4096 = 0

theorem Start.inv (h : s.Start pool) (m : ℕ) : s.Inv m pool s.pts.mem.zero := by
  have hentry : ∀ d va, s.entry d va = 0 := h.fresh.shows
  have hnode : ∀ {d r}, s.pts.node d r ≠ 0 → s.pts.pt d ≠ 0 ∧ s.pts.node d r = s.pts.pt d := by
    intro d r hne
    cases r with
    | nil => exact ⟨hne, rfl⟩
    | cons i r => exact (hne (h.fresh.node_cons d i r)).elim
  have huses : ∀ p, uses (s.pts.view m) p = 0 := by
    intro p
    refine uses_eq_zero.mpr fun x hx => ?_
    unfold PtState.view at hx
    rw [show s.pts.entry x.1 (vaOf x.2) = 0 from hentry _ _, mapped_zero] at hx
    cases hx
  obtain ⟨hvalid, hnot, hone, hwords⟩ := h.zero
  refine ⟨⟨h.fresh.tables, ?_, ?_, ⟨hvalid, hnot, fun d r hz => ?_⟩, hwords, fun d va => .inl (hentry d va),
    ?_, ?_, fun p _ => by rw [huses]; exact Nat.zero_le 1, fun d r hne => ?_⟩, rfl,
    fun d va hne => (hne (hentry d va)).elim, fun d => by rw [h.heap]; rfl⟩
  · rw [← h.free]
    exact h.fresh.pages
  · rw [h.free]
    exact fun p hp => hp
  · have hne : s.pts.node d r ≠ 0 := by
      rw [hz]
      exact hvalid.ne_zero
    obtain ⟨hroot, heq⟩ := hnode hne
    exact (h.root d hroot).2 (heq.symm.trans hz)
  · intro p hp _
    rw [huses]
    unfold PtState.heldZero
    rcases hp with hp | rfl
    · have hpz : p ≠ s.pts.mem.zero := by
        rintro rfl
        exact hnot hp
      rw [if_neg hpz, h.ref p hp]
      rfl
    · rw [if_pos rfl, hone]
      rfl
  · intro p hp _
    rw [h.free, h.ref p hp]
    exact ⟨fun _ => rfl, fun _ => hp⟩
  · obtain ⟨hroot, heq⟩ := hnode hne
    rw [heq]
    exact (h.root d hroot).1

/-- `sbrk` within the addresses. -/
theorem Inv.sbrk {size : BitVec 64} (h : s.Inv m pool zero) (hd : d < m)
    (hlow : 0 ≤ (s.heapEnd d).toNat + size.toInt)
    (hhigh : (s.heapEnd d).toNat + size.toInt < 2 ^ 64) :
    (s.sbrk d size).2.Inv m pool zero := by
  unfold PagingState.sbrk
  by_cases hsize : size.srem 4096#64 ≠ 0
  · rw [if_pos hsize]
    exact h
  · rw [if_neg hsize]
    obtain ⟨hend, hdvd⟩ := sbrk_end (not_not.mp hsize) hlow hhigh
    have haligned := h.aligned d
    have hnew : (s.heapEnd d + size).toNat % 4096 = 0 := by omega
    have halign : ∀ e, (Function.update s.heapEnd d (s.heapEnd d + size) e).toNat % 4096 = 0 := by
      intro e
      by_cases he : e = d
      · subst he
        rw [Function.update_self]
        exact hnew
      · rw [Function.update_of_ne he]
        exact h.aligned e
    simp only
    split
    · -- the heap gets smaller
      rename_i hneg
      have hlt : size.toInt < 0 := by
        rw [BitVec.slt_iff_toInt_lt] at hneg
        exact hneg
      obtain ⟨hcounts, hz, hentry⟩ := h.counts.freeRange hd
        (((pageBase (s.heapEnd d)).toNat - (pageBase (s.heapEnd d + size)).toNat) / 4096)
        (pageBase (s.heapEnd d + size)) h.zero_eq
      refine ⟨hcounts, hz, fun e va hne => ?_, halign⟩
      have hne' : (s.pts.freeRange d _ _).entry e va ≠ 0 := hne
      rw [hentry] at hne'
      by_cases he : e = d
      · subst he
        show vpn va * 4096 < (Function.update s.heapEnd e _ e).toNat
        rw [Function.update_self]
        by_contra hge
        have hcleared : ¬∃ k < ((pageBase (s.heapEnd e)).toNat -
            (pageBase (s.heapEnd e + size)).toNat) / 4096,
            vpn va = vpn (pageBase (s.heapEnd e + size) + BitVec.ofNat 64 (4096 * k)) := by
          intro hk
          exact hne' (if_pos ⟨rfl, hk⟩)
        rw [if_neg fun hand => hcleared hand.2] at hne'
        have hold := h.below e va hne'
        have hvpn := vpn_lt va
        -- the entry is one of those of the loop
        refine hcleared ⟨vpn va - (s.heapEnd e + size).toNat / 4096, ?_, ?_⟩
        · rw [pageBase_toNat, pageBase_toNat]
          omega
        · unfold vpn at hvpn hge hold ⊢
          rw [BitVec.toNat_add, pageBase_toNat, BitVec.toNat_ofNat]
          omega
      · rw [if_neg fun hand => he hand.1] at hne'
        show vpn va * 4096 < (Function.update s.heapEnd d _ e).toNat
        rw [Function.update_of_ne he]
        exact h.below e va hne'
    · rename_i hpos
      have hge : 0 ≤ size.toInt := by
        rw [BitVec.slt_iff_toInt_lt] at hpos
        exact Int.not_lt.mp hpos
      refine ⟨h.counts, h.zero_eq, fun e va hne => ?_, halign⟩
      have hold := h.below e va hne
      by_cases he : e = d
      · subst he
        show vpn va * 4096 < (Function.update s.heapEnd e _ e).toNat
        rw [Function.update_self]
        omega
      · show vpn va * 4096 < (Function.update s.heapEnd d _ e).toNat
        rw [Function.update_of_ne he]
        exact hold

/-- An entry that is not valid is empty. -/
theorem Inv.entry_zero (h : s.Inv m pool zero) {va : BitVec 64}
    (hinvalid : s.entry d va &&& pteValid = 0) : s.entry d va = 0 :=
  h.counts.entry_zero hinvalid

/-- The zero page mapped at an address of the heap. -/
theorem Inv.mapZero {va : BitVec 64} (h : s.Inv m pool zero) (hd : d < m)
    (hva : va < s.heapEnd d) (hinvalid : s.entry d va &&& pteValid = 0)
    {u : PtState} (hs : s.pts.vmmap d va s.pts.mem.zero (pteRo ||| pteUserData) = some u) :
    Inv m pool zero { s with pts := u } := by
  obtain ⟨hcounts, hz, hentry, -⟩ := h.counts.vmmap
    (fun p _ => PtState.heldZero_nonneg zero p) hd hs (.inl ⟨rfl, rfl⟩)
    (PtState.heldZero_nonneg zero _)
  have h0 := h.entry_zero hinvalid
  refine ⟨?_, hz.trans h.zero_eq, fun e va' hne => ?_, h.aligned⟩
  · convert hcounts using 1
    funext p
    rw [show s.pts.entry d va = 0 from h0, mapped_zero, if_neg nofun]
    omega
  · have hne' : u.entry e va' ≠ 0 := hne
    rw [hentry] at hne'
    by_cases hsame : e = d ∧ vpn va' = vpn va
    · have hlt : va.toNat < (s.heapEnd d).toNat := hva
      show vpn va' * 4096 < (s.heapEnd e).toNat
      rw [hsame.1, hsame.2]
      unfold vpn
      omega
    · rw [if_neg hsame] at hne'
      exact h.below e va' hne'

/-- A store of the process to a page that it may write. -/
theorem Inv.store {i : PtIndex} {v : BitVec 64} {p : Addr} (h : s.Inv m pool zero)
    (hm : mapped (s.entry d addr) = some p) (hro : s.entry d addr &&& pteRo = 0) :
    Inv m pool zero { s with pts := s.pts.writePte (p, i) v } := by
  rcases h.counts.shape d addr with h0 | ⟨hd, hzero | ⟨q, hq, hqs, hdata⟩⟩
  · rw [show s.entry d addr = 0 from h0, mapped_zero] at hm
    cases hm
  · -- an entry of the zero page is read-only
    rw [show s.entry d addr = _ from hzero] at hro
    exact (roEntry_ro h.counts.zeroPage.1 hro).elim
  · rw [show s.entry d addr = _ from hdata, mapped_dataEntry (h.counts.valid_pool q hq)] at hm
    obtain rfl := Option.some.inj hm
    have hview := PtState.view_slot h.counts.tables hd addr
    rw [hdata, mapped_dataEntry (h.counts.valid_pool q hq)] at hview
    have hfree := h.counts.not_free hq hqs (PtState.heldZero_nonneg zero q) hview
    obtain ⟨hcounts, -, hentry⟩ := h.counts.write_words
      (w := Function.update (s.pts.mem.words q) i v) hq hqs hfree
    refine ⟨hcounts, h.zero_eq, fun e va hne => ?_, h.aligned⟩
    refine h.below e va fun h0 => hne ?_
    exact (hentry e va).trans h0

/-- What a page fault leaves behind: a page of its own that holds what was read before. -/
structure Faulted (m : ℕ) (pool : List Addr) (s t : PagingState) (d : ℕ) (addr : BitVec 64)
    (page : Addr) : Prop where
  /-- the page has been free -/
  fresh : page ∈ s.pts.mem.free
  entry : t.entry d addr = dataEntry page
  own : uses (t.pts.view m) page = 1
  words : t.pts.mem.words page = s.readable d addr
  other : ∀ e va, ¬(e = d ∧ vpn va = vpn addr) → t.entry e va = s.entry e va

theorem vpn_pageBase (a : BitVec 64) : vpn (pageBase a) = vpn a := by
  unfold vpn
  rw [pageBase_toNat]
  omega

theorem kfreePage_words {mem : PageMem} {p : Addr} (h : mem.ref (pageIndex p) ≠ 1) :
    (mem.kfreePage p).words = mem.words := by
  unfold PageMem.kfreePage
  simp only [Function.update_self]
  rw [if_neg]
  rintro ⟨hzero, -⟩
  omega

/-- The page of the fault before `vmmap`: it holds what was read, and the reference of an entry
that is to be written over has been given up. -/
structure Prepared (m : ℕ) (pool : List Addr) (zero : Addr) (s : PagingState) (d : ℕ)
    (addr : BitVec 64) (page : Addr) (held : Addr → ℤ) (t : PtState) : Prop where
  counts : PtState.Counts m pool held t
  zero_eq : t.mem.zero = zero
  nonneg : ∀ p ∈ pool, 0 ≤ held p
  held_eq : ∀ p, (held p + if mapped (s.entry d addr) = some p then 1 else 0) =
    Function.update (PtState.heldZero zero) page 1 p
  entry : ∀ e va, t.entry e va = s.entry e va
  plain : t.Plain page
  used : page ∉ t.mem.free
  unmapped : uses (t.view m) page = 0
  words : t.mem.words page = s.readable d addr

theorem Inv.prepare (h : s.Inv m pool zero) (hraise : s.Raises d addr iss)
    {page : Addr} {mem : PageMem} (hpage : s.pts.mem.kallocPage = some (page, mem)) {u : PtState}
    {pte : PtePtr} (hget : PtState.getPte { s.pts with mem := mem } d addr true = some (u, some pte)) :
    page ∈ pool ∧ u.mem.words pte.1 pte.2 = s.entry d addr ∧
    ∃ held, Prepared m pool zero s d addr page held
      (if pteFlags (s.entry d addr) &&& pteRo ≠ 0 ∧ iss &&& 0x2#64 ≠ 0 then
        { u.copyPage page (p2k (pteAddress (s.entry d addr))) with
          mem := (u.copyPage page (p2k (pteAddress (s.entry d addr)))).mem.kfreePage
            (p2k (pteAddress (s.entry d addr))) }
      else u) := by
  have hin : page ∈ s.pts.mem.free := by
    rw [(PageMem.kallocPage_eq hpage).1]
    exact List.mem_cons_self
  have hpool := h.counts.freePool page hin
  have hpz : page ≠ zero := by
    have hne := h.counts.zero_ne hpool
    rwa [h.zero_eq] at hne
  obtain ⟨hc, -, hplain, hfree, huses, hwords, hentry⟩ := h.counts.alloc hpage (if_neg hpz)
  obtain ⟨hu, hwalked, ho, -⟩ := PtState.getPte_spec hc.tables hget
  have hnonneg : ∀ p, 0 ≤ Function.update (PtState.heldZero zero) page 1 p := by
    intro p
    by_cases hp : p = page
    · rw [hp, Function.update_self]
      decide
    · rw [Function.update_of_ne hp]
      exact PtState.heldZero_nonneg zero p
  have hcu := hc.walked (fun p _ => hnonneg p) hu hwalked
  have huentry : ∀ e va, u.entry e va = s.entry e va := fun e va =>
    (hwalked.entry hc.tables hu e va).trans (hentry e va)
  have huplain : u.Plain page := hwalked.node_ne hfree hplain
  have hufree : page ∉ u.mem.free := fun hmem => hfree (hwalked.free.subset hmem)
  have huuses : uses (u.view m) page = 0 := by
    rw [PtState.view_congr (hwalked.entry hc.tables hu)]
    exact huses
  have huwords : ∀ i, u.mem.words page i = 0 := by
    intro i
    rw [hwalked.data page hfree hplain]
    exact hwords i
  have huzero : u.mem.zero = zero := by
    rw [hwalked.zero]
    exact (PageMem.kallocPage_eq hpage).2.2.2.trans h.zero_eq
  have hread : u.mem.words pte.1 pte.2 = s.entry d addr := by
    rw [← huentry d addr, PtState.entry_eq hu]
    unfold Radix.slot
    split at ho
    · cases ho
    · rename_i hne
      cases ho
      rw [if_neg hne]
      rfl
  refine ⟨hpool, hread, ?_⟩
  rw [flags_and_ro]
  rcases h.counts.shape d addr with h0 | ⟨-, hro | ⟨q, hq, -, hdata⟩⟩
  · -- the first access
    have hno : ¬(s.entry d addr &&& pteRo ≠ 0 ∧ iss &&& 0x2#64 ≠ 0) := by
      rintro ⟨hne, -⟩
      rw [show s.entry d addr = 0 from h0] at hne
      exact hne (by decide)
    rw [if_neg hno]
    refine ⟨_, hcu, huzero, fun p _ => hnonneg p, fun p => ?_, huentry, huplain, hufree, huuses, ?_⟩
    · rw [show s.entry d addr = 0 from h0, mapped_zero, if_neg nofun]
      omega
    · unfold readable
      rw [show s.entry d addr = 0 from h0, mapped_zero]
      exact funext huwords
  · -- a write to the zero page
    have hm : mapped (s.entry d addr) = some zero := by
      rw [show s.entry d addr = _ from hro, mapped_roEntry h.counts.zeroPage.1, h.zero_eq]
    have hvalid : s.entry d addr &&& pteValid ≠ 0 := by
      intro hz
      unfold mapped at hm
      rw [if_neg fun hne => hne hz] at hm
      cases hm
    have horiginal : p2k (pteAddress (s.entry d addr)) = zero := by
      unfold mapped at hm
      rw [if_pos hvalid] at hm
      exact Option.some.inj hm
    have hyes : s.entry d addr &&& pteRo ≠ 0 ∧ iss &&& 0x2#64 ≠ 0 :=
      hraise.resolve_left hvalid
    rw [if_pos hyes, horiginal]
    obtain ⟨hcopy, hnode, hcentry⟩ := hcu.write_words (w := u.mem.words zero) hpool huplain hufree
    have hplainZero : PtState.Plain (u.copyPage page zero) zero := by
      have hz := hcopy.zeroPage.2.2
      rwa [show PtState.Plain _ _ ↔ PtState.Plain (u.copyPage page zero) zero by
        rw [← huzero]; rfl] at hz
    have hzfree : zero ∉ (u.copyPage page zero).mem.free := by
      intro hmem
      exact hcopy.zeroPage.2.1 (huzero.symm ▸ hcopy.freePool _ hmem)
    obtain ⟨hkfree, hknode, hkentry⟩ := PtState.Counts.kfreePage (s := u.copyPage page zero) hcopy
      (p := zero) (.inr huzero.symm) hplainZero hzfree
    have hz1 : Function.update (PtState.heldZero zero) page 1 zero = 1 := by
      rw [Function.update_of_ne hpz.symm]
      exact if_pos rfl
    have hzero' : ((u.copyPage page zero).mem.kfreePage zero).words = (u.copyPage page zero).mem.words ∧
        ((u.copyPage page zero).mem.kfreePage zero).free = (u.copyPage page zero).mem.free ∧
        ((u.copyPage page zero).mem.kfreePage zero).zero = zero := by
      unfold PageMem.kfreePage
      simp only
      rw [if_neg fun hand => hand.2 huzero.symm]
      exact ⟨rfl, rfl, huzero⟩
    have hzwords : (u.copyPage page zero).mem.words page = fun _ => 0 := by
      show Function.update u.mem.words page (u.mem.words zero) page = _
      rw [Function.update_self]
      funext i
      rw [← huzero]
      exact hcu.zeroWords i
    refine ⟨_, hkfree, hzero'.2.2, fun p hp => ?_, fun p => ?_, fun e va => ?_, fun e r => ?_, ?_, ?_,
      ?_⟩
    · have hpne : p ≠ zero := by
        have hne := h.counts.zero_ne hp
        rwa [h.zero_eq] at hne
      rw [Function.update_of_ne hpne]
      exact hnonneg p
    · rw [hm, hz1]
      by_cases hp : p = zero
      · rw [hp, Function.update_self, if_pos rfl, hz1]
        rfl
      · rw [Function.update_of_ne hp, if_neg fun heq => hp (Option.some.inj heq).symm]
        omega
    · exact (hkentry e va).trans ((hcentry e va).trans (huentry e va))
    · rw [hknode]
      exact fun heq => huplain e r ((hnode e r).symm.trans heq)
    · show page ∉ ((u.copyPage page zero).mem.kfreePage zero).free
      rw [hzero'.2.1]
      exact hufree
    · rw [PtState.view_congr (t := { u.copyPage page zero with
        mem := (u.copyPage page zero).mem.kfreePage zero }) (s := u)
        fun e va => (hkentry e va).trans (hcentry e va)]
      exact huuses
    · show ((u.copyPage page zero).mem.kfreePage zero).words page = _
      rw [hzero'.1, hzwords]
      unfold readable
      rw [hm]
      funext i
      rw [← h.zero_eq]
      exact (h.counts.zeroWords i).symm
  · -- no fault is raised at a page of one's own
    have hm := mapped_dataEntry (h.counts.valid_pool q hq)
    rw [← hdata] at hm
    exfalso
    rcases hraise with hinvalid | ⟨hro, -⟩
    · unfold mapped at hm
      rw [if_neg fun hne => hne hinvalid] at hm
      cases hm
    · rw [show s.entry d addr = _ from hdata, dataEntry_ro (h.counts.valid_pool q hq)] at hro
      exact hro rfl

/-- The page fault. -/
theorem Inv.fault (h : s.Inv m pool zero) (hd : d < m) (hraise : s.Raises d addr iss)
    (hs : s.pgfaultHandler d addr iss = some t) :
    t.Inv m pool zero ∧ ∃ page ∈ pool, Faulted m pool s t d addr page := by
  unfold pgfaultHandler at hs
  split at hs
  · rename_i haddr
    split at hs
    · cases hs
    · rename_i page mem hpage
      split at hs
      · rename_i u pte hget
        obtain ⟨hpool, hread, held, hprep⟩ := h.prepare hraise hpage hget
        simp only [hread] at hs
        obtain ⟨w, hvmmap, rfl⟩ := Option.map_eq_some_iff.mp hs
        have hpz : page ≠ zero := by
          have hne := h.counts.zero_ne hpool
          rwa [h.zero_eq] at hne
        have hbase : ∀ va, vpn va = vpn (pageBase addr) ↔ vpn va = vpn addr := by
          intro va
          rw [vpn_pageBase]
        have hheld : held page = 1 := by
          have heq := hprep.held_eq page
          rw [Function.update_self] at heq
          have hnot : mapped (s.entry d addr) ≠ some page := by
            intro hm
            have hview := PtState.view_slot hprep.counts.tables hd addr
            rw [hprep.entry, hm] at hview
            exact uses_eq_zero.mp hprep.unmapped _ hview
          rwa [if_neg hnot, Int.add_zero] at heq
        obtain ⟨hcounts, hz, hentry, hwords⟩ := hprep.counts.vmmap hprep.nonneg hd hvmmap
          (.inr ⟨hpool, hprep.plain, hprep.used, hprep.unmapped, rfl⟩) (by rw [hheld]; decide)
        have hcounts' : PtState.Counts m pool (Function.update (PtState.heldZero zero) page 1) w := by
          convert hcounts using 1
          funext p
          have hsame : PtState.entry _ d (pageBase addr) = s.entry d addr :=
            (PtState.entry_congr hprep.counts.tables (vpn_pageBase addr)).trans (hprep.entry d addr)
          rw [hsame]
          exact (hprep.held_eq p).symm
        have hnew : w.entry d addr = dataEntry page := by
          rw [hentry, if_pos ⟨rfl, (vpn_pageBase addr).symm⟩]
        have hm : mapped (w.entry d addr) = some page := by
          rw [hnew, mapped_dataEntry (h.counts.valid_pool page hpool)]
        have hview := PtState.view_slot hcounts'.tables hd addr
        rw [hm] at hview
        have hplain : w.Plain page := by
          rcases hcounts'.shape d addr with h0 | ⟨-, hro | ⟨q, hq, hqs, hdata⟩⟩
          · rw [h0, mapped_zero] at hm
            cases hm
          · rw [hro, mapped_roEntry hcounts'.zeroPage.1] at hm
            exact (hcounts'.zero_ne hpool (Option.some.inj hm).symm).elim
          · rw [hdata, mapped_dataEntry (h.counts.valid_pool q hq)] at hm
            exact Option.some.inj hm ▸ hqs
        have hfree : page ∉ w.mem.free :=
          hcounts'.not_free hpool hplain (by rw [Function.update_self]; decide) hview
        have hone : uses (w.view m) page = 1 := by
          have hle := hcounts'.once page hpool
          have hne : uses (w.view m) page ≠ 0 := fun hzero => uses_eq_zero.mp hzero _ hview
          omega
        -- the reference of the handler
        obtain ⟨hlast, -, hlentry⟩ := hcounts'.kfreePage (.inl hpool) hplain hfree
        have href : w.mem.ref (pageIndex page) ≠ 1 := by
          rw [hcounts'.ref page (.inl hpool) hplain, hone, Function.update_self]
          decide
        have hlzero : (w.mem.kfreePage page).zero = w.mem.zero := by
          unfold PageMem.kfreePage
          simp only
          split <;> rfl
        have hother : ∀ e va, ¬(e = d ∧ vpn va = vpn addr) → w.entry e va = s.entry e va := by
          intro e va hne
          rw [hentry, if_neg fun hand => hne ⟨hand.1, (hbase va).mp hand.2⟩, hprep.entry]
        refine ⟨⟨?_, ?_, fun e va hne => ?_, h.aligned⟩, page, hpool, ⟨?_, ?_, ?_, ?_, ?_⟩⟩
        · convert hlast using 1
          funext p
          by_cases hp : p = page
          · rw [hp, Function.update_self, Function.update_self]
            exact if_neg hpz
          · rw [Function.update_of_ne hp, Function.update_of_ne hp]
        · exact hlzero.trans (hz.trans hprep.zero_eq)
        · have hne' : w.entry e va ≠ 0 := fun h0 => hne ((hlentry e va).trans h0)
          by_cases hsame : e = d ∧ vpn va = vpn addr
          · have hlt : addr.toNat < (s.heapEnd d).toNat := haddr
            show vpn va * 4096 < (s.heapEnd e).toNat
            rw [hsame.1, hsame.2]
            unfold vpn
            omega
          · rw [hother e va hsame] at hne'
            exact h.below e va hne'
        · rw [(PageMem.kallocPage_eq hpage).1]
          exact List.mem_cons_self
        · exact (hlentry d addr).trans hnew
        · rw [PtState.view_congr (t := { w with mem := w.mem.kfreePage page }) (s := w) hlentry]
          exact hone
        · show (w.mem.kfreePage page).words page = _
          rw [kfreePage_words href, hwords page hprep.used hprep.plain, hprep.words]
        · exact fun e va hne => (hlentry e va).trans (hother e va hne)
      · cases hs
  · cases hs

theorem Inv.step {l : PagingStep} (h : s.Inv m pool zero) (hok : s.InRange l)
    (hs : s.step m l = some t) : t.Inv m pool zero := by
  cases l with
  | sbrk d size =>
    simp only [PagingState.step] at hs
    split at hs
    · rename_i hd
      cases hs
      exact h.sbrk hd hok.1 hok.2
    · cases hs
  | mapZero d va =>
    simp only [PagingState.step] at hs
    split at hs
    · rename_i hva
      obtain ⟨u, hu, rfl⟩ := Option.map_eq_some_iff.mp hs
      exact h.mapZero hva.1 hva.2.2.1 hva.2.2.2 hu
    · cases hs
  | fault d addr iss =>
    simp only [PagingState.step] at hs
    split at hs
    · rename_i hraise
      exact (h.fault hraise.1 hraise.2 hs).1
    · cases hs
  | store d addr v =>
    simp only [PagingState.step] at hs
    split at hs
    · rename_i hmap
      cases hs
      exact h.store (if_pos hmap.2.1) hmap.2.2
    · cases hs

/-- Every page that is no page of a table has as many references as entries map it, and the
zero page one more; a page that nothing maps is free, and no other; and a page of a table is
counted once. -/
structure Counted (m : ℕ) (pool : List Addr) (zero : Addr) (s : PagingState) : Prop where
  zero_eq : s.pts.mem.zero = zero
  data : ∀ p ∈ pool, s.pts.Plain p → s.pts.mem.ref (pageIndex p) = uses (s.pts.view m) p
  zero_ref : s.pts.mem.ref (pageIndex zero) = uses (s.pts.view m) zero + 1
  table : ∀ d r, s.pts.node d r ≠ 0 → s.pts.mem.ref (pageIndex (s.pts.node d r)) = 1
  free : ∀ p ∈ pool, s.pts.Plain p → (p ∈ s.pts.mem.free ↔ ∀ x, s.pts.view m x ≠ some p)
  /-- the zero page is not freed, and not changed -/
  zero_kept : zero ∉ s.pts.mem.free ∧ ∀ i, s.pts.mem.words zero i = 0

theorem Inv.counted (h : s.Inv m pool zero) : s.Counted m pool zero := by
  have hc := h.counts
  have hz := h.zero_eq
  have hdata : ∀ p ∈ pool, s.pts.Plain p → s.pts.mem.ref (pageIndex p) = uses (s.pts.view m) p := by
    intro p hp hps
    have hne := hc.zero_ne hp
    rw [hz] at hne
    rw [hc.ref p (.inl hp) hps, PtState.heldZero, if_neg hne, Int.add_zero]
  refine ⟨hz, hdata, ?_, hc.tableRef, fun p hp hps => ?_, ?_, ?_⟩
  · rw [← hz, hc.ref _ (.inr rfl) hc.zeroPage.2.2, PtState.heldZero, if_pos hz]
  · rw [hc.free_iff p hp hps, hdata p hp hps, ← uses_eq_zero]
    exact Int.natCast_eq_zero
  · intro hin
    exact hc.zeroPage.2.1 (hz.symm ▸ hc.freePool _ hin)
  · rw [← hz]
    exact hc.zeroWords

theorem Start.inv_of_leads {s₀ : PagingState} (h₀ : s₀.Start pool)
    (h : (pagingSystem pool m).Leads InRange s₀ s) : s.Inv m pool s₀.pts.mem.zero :=
  h.induction (I := fun s => s.Inv m pool s₀.pts.mem.zero)
    (fun _ _ _ hs hok hstep => hs.step hok hstep) (h₀.inv m)

end PagingState

/-- **The heaps.**  In every run from a start in which `sbrk` stays in range, the counts are the
numbers of entries, nothing is mapped behind the end of a heap, and after a page fault there
is a page of one's own that holds what has been read before. -/
theorem paging_sound {pool : List Addr} {m : ℕ} {s₀ s : PagingState} (h₀ : s₀.Start pool)
    (h : (pagingSystem pool m).Leads PagingState.InRange s₀ s) :
    s.Counted m pool s₀.pts.mem.zero ∧
    (∀ d va, s.entry d va &&& pteValid ≠ 0 → vpn va * 4096 < (s.heapEnd d).toNat) ∧
    ∀ d addr iss t, (pagingSystem pool m).step s (.fault d addr iss) = some t →
      ∃ page ∈ pool, PagingState.Faulted m pool s t d addr page := by
  have hinv := h₀.inv_of_leads h
  refine ⟨hinv.counted, fun d va hvalid => hinv.below d va fun h0 => hvalid ?_,
    fun d addr iss t hs => ?_⟩
  · rw [h0]
    decide
  · simp only [pagingSystem, PagingState.step] at hs
    split at hs
    · rename_i hraise
      exact (hinv.fault hraise.1 hraise.2 hs).2
    · cases hs

namespace PagingState

/-- The pages of a run. -/
def bootPool : List Addr := (List.range 12).map fun n => ptPage (n + 2)

/-- One directory with an empty root table, and the zero page. -/
def boot : PagingState where
  pts :=
    { mem :=
        { free := bootPool
          ref := fun n => if n = pageIndex (ptPage 0) ∨ n = pageIndex (ptPage 1) then 1 else 0
          allocated := 2
          zero := ptPage 1
          words := fun _ _ => 0 }
      pt := fun d => if d = 0 then ptPage 0 else 0 }
  heapEnd := fun _ => 0

theorem boot_pool : ∀ p ∈ bootPool, ValidPage p ∧ boot.pts.mem.ref (pageIndex p) = 0 := by
  have hall : ∀ n ∈ List.range 12,
      ValidPage (ptPage (n + 2)) ∧ boot.pts.mem.ref (pageIndex (ptPage (n + 2))) = 0 := by
    decide
  exact List.forall_mem_map.mpr hall

theorem boot_pages : ValidPage (boot.pts.pt 0) ∧ boot.pts.pt 0 ∉ bootPool ∧
    boot.pts.mem.ref (pageIndex (boot.pts.pt 0)) = 1 ∧ boot.pts.pt 0 ≠ boot.pts.mem.zero ∧
    ValidPage boot.pts.mem.zero ∧ boot.pts.mem.zero ∉ bootPool ∧
    boot.pts.mem.ref (pageIndex boot.pts.mem.zero) = 1 := by
  decide

theorem boot_start : boot.Start bootPool := by
  have hpt : ∀ d, boot.pts.pt d = if d = 0 then ptPage 0 else 0 := fun _ => rfl
  have hzero : ∀ d, boot.pts.pt d ≠ 0 → d = 0 := by
    intro d hd
    by_contra hne
    rw [hpt, if_neg hne] at hd
    exact hd rfl
  obtain ⟨hvalid, hnot, hone, hne, hz⟩ := boot_pages
  refine ⟨⟨fun p hp => (boot_pool p hp).1, ?_, fun d hd => ?_⟩, rfl, fun p hp => (boot_pool p hp).2,
    fun d hd => ?_, ⟨hz.1, hz.2.1, hz.2.2, fun _ => rfl⟩, fun _ => rfl⟩
  · decide
  · obtain rfl := hzero d hd
    exact ⟨hvalid, hnot, fun _ => rfl, fun e he => hzero e (he ▸ hd)⟩
  · obtain rfl := hzero d hd
    exact ⟨hone, hne⟩

end PagingState

/-- Two pages of a heap are written, one of them after a read of the zero page, and one is given
back. -/
theorem paging_sound_two : ∃ s : PagingState, s.heapEnd 0 = 0x2000#64 ∧
    s.entry 0 0x1000#64 &&& pteValid ≠ 0 ∧ s.entry 0 0x2000#64 = 0 ∧
    s.Counted 1 PagingState.bootPool (ptPage 1) := by
  have hrun : ((pagingSystem PagingState.bootPool 1).exec PagingState.InRange .boot
      [.sbrk 0 0x3000#64, .fault 0 0x1008#64 0, .store 0 0x1010#64 7#64, .mapZero 0 0x2000#64,
        .fault 0 0x2010#64 2#64, .store 0 0x2010#64 8#64, .sbrk 0 (-0x1000#64)]).map
      (fun s => (s.heapEnd 0, s.entry 0 0x1000#64 &&& pteValid, s.entry 0 0x2000#64)) =
      some (0x2000#64, 1#64, 0#64) := by
    decide +kernel
  obtain ⟨s, hs, heq⟩ := Option.map_eq_some_iff.mp hrun
  obtain ⟨hend, hrest⟩ := Prod.mk.inj heq
  obtain ⟨hvalid, hgone⟩ := Prod.mk.inj hrest
  refine ⟨s, hend, ?_, hgone,
    (paging_sound PagingState.boot_start (System.leads_of_exec hs)).1⟩
  rw [hvalid]
  decide

/-- **Counts without entries, and an entry behind the end.**  The root table is counted once and
no entry maps it; and after `sbrk` has wrapped around, a page stays mapped behind the end of
the heap, where it has been before the heap was made smaller. -/
theorem paging_exceptions :
    (PagingState.boot.Start PagingState.bootPool ∧ ptPage 0 ≠ ptPage 1 ∧
      PagingState.boot.pts.mem.ref (pageIndex (ptPage 0)) = 1 ∧
      uses (PagingState.boot.pts.view 1) (ptPage 0) = 0) ∧
    ∃ s t : PagingState, (pagingSystem PagingState.bootPool 1).Leads (fun _ _ => True) .boot s ∧
      (pagingSystem PagingState.bootPool 1).step s (.sbrk 0 (-0x1000#64)) = some t ∧
      (s.heapEnd 0).toNat = 0x1000 ∧ (t.heapEnd 0).toNat = 0 ∧
      t.entry 0 0x1000#64 &&& pteValid ≠ 0 := by
  constructor
  · refine ⟨PagingState.boot_start, by decide, PagingState.boot_pages.2.2.1, ?_⟩
    refine uses_eq_zero.mpr fun x hx => ?_
    unfold PtState.view at hx
    rw [PagingState.boot_start.fresh.shows x.1 (vaOf x.2), mapped_zero] at hx
    cases hx
  · have hrun : ((pagingSystem PagingState.bootPool 1).exec (fun _ _ => True) .boot
        [.sbrk 0 0x2000#64, .fault 0 0x1000#64 0, .sbrk 0 0x7ffffffffffff000#64,
          .sbrk 0 0x7ffffffffffff000#64, .sbrk 0 0x1000#64]).map
        (fun s => ((s.heapEnd 0).toNat,
          ((pagingSystem PagingState.bootPool 1).step s (.sbrk 0 (-0x1000#64))).map
            fun t => ((t.heapEnd 0).toNat, t.entry 0 0x1000#64 &&& pteValid))) =
        some (0x1000, some (0, 1#64)) := by
      decide
    obtain ⟨s, hs, heq⟩ := Option.map_eq_some_iff.mp hrun
    obtain ⟨hend, hstep⟩ := Prod.mk.inj heq
    obtain ⟨t, ht, hread⟩ := Option.map_eq_some_iff.mp hstep
    obtain ⟨hend', hvalid⟩ := Prod.mk.inj hread
    refine ⟨s, t, System.leads_of_exec hs, ht, hend, hend', ?_⟩
    rw [hvalid]
    decide

end OsLab
