/-
Page tables (`get_pte` and `vmmap` of `kernel/pt.c`).

The page directories of all processes take their tables from one memory.  A page table is
a map from virtual page numbers to entries: two addresses have one entry just when they
are in one page of one directory (`pte_slots`), `vmmap` changes the entry of its page and
no other (`vmmap_entry`), and a table that an earlier call made is there for good
(`getPte_covered`).  What carries this is that the tables form a forest
(`PtState.Tables`), which a walk keeps while it adds tables along its path
(`getPte_spec`).
-/
import OsLab.Kernel.Pages
import OsLab.Lib.Radix

namespace OsLab

attribute [local instance] nPtePerTable_neZero

/-- `PTE_TABLE` -/
abbrev pteTable : BitVec 64 := 0x3#64

/-- An index into a table. -/
abbrev PtIndex := Fin nPtePerTable

/-- `(va >> shift) & 0x1FF` -/
def pdIndex (va : BitVec 64) (shift : ℕ) : PtIndex :=
  Fin.ofNat nPtePerTable ((va >>> shift) &&& 0x1FF#64).toNat

/-- The pages, and `pgdir->pt` of each page directory. -/
structure PtState where
  mem : PageMem
  pt : ℕ → Addr

/-- A pointer to an entry. -/
abbrev PtePtr := Addr × PtIndex

namespace PtState

/-- One level of `get_pte`: the table behind an entry, which is made if `alloc`.  The
source writes this three times, for `pde_1`, `pde_2` and `pde_3`. -/
def nextTable (m : PageMem) (table : Addr) (i : PtIndex) (alloc : Bool) :
    Option (PageMem × Addr) :=
  if m.words table i = 0 then
    if alloc then
      match m.kallocPage with
      | none => none
      | some (pde, m) =>
        let m := m.write table i (k2p pde ||| pteTable)
        some (m, p2k (pteAddress (m.words table i)))
    else some (m, 0)
  else some (m, p2k (pteAddress (m.words table i)))

/-- The levels one after another; a level without a table returns `NULL`. -/
def walk (m : PageMem) (table : Addr) (alloc : Bool) : List PtIndex → Option (PageMem × Addr)
  | [] => some (m, table)
  | i :: is =>
    match nextTable m table i alloc with
    | none => none
    | some (m, table) => if table = 0 then some (m, 0) else walk m table alloc is

/-- `get_pte`: the state after it, and the pointer or `NULL`; `none` when a page is needed
and there is none. -/
def getPte (s : PtState) (d : ℕ) (va : BitVec 64) (alloc : Bool) :
    Option (PtState × Option PtePtr) :=
  let root : Option (PtState × Addr) :=
    if s.pt d = 0 then
      if alloc then
        s.mem.kallocPage.map fun (p, m) => ({ mem := m, pt := Function.update s.pt d p }, p)
      else some (s, 0)
    else some (s, s.pt d)
  match root with
  | none => none
  | some (s, table) =>
    if table = 0 then some (s, none)
    else
      match walk s.mem table alloc [pdIndex va 39, pdIndex va 30, pdIndex va 21] with
      | none => none
      | some (m, table) =>
        some ({ s with mem := m }, if table = 0 then none else some (table, pdIndex va 12))

/-- A store to an entry. -/
def writePte (s : PtState) (pte : PtePtr) (v : BitVec 64) : PtState :=
  { s with mem := s.mem.write pte.1 pte.2 v }

/-- `vmmap` -/
def vmmap (s : PtState) (d : ℕ) (va : BitVec 64) (ka : Addr) (flags : BitVec 64) :
    Option PtState :=
  match s.getPte d va true with
  | some (s, some pte) =>
    let s := s.writePte pte (k2p ka ||| flags ||| pteTable)
    some { s with mem := s.mem.refPage ka }
  -- the store goes through `NULL`
  | _ => none

/-- What is read in the entry of an address, 0 when there is no table for it. -/
def entry (s : PtState) (d : ℕ) (va : BitVec 64) : BitVec 64 :=
  match s.getPte d va false with
  | some (s, some pte) => s.mem.words pte.1 pte.2
  | _ => 0

end PtState

/-- The calls on page directories. -/
inductive PtCall
  | getPte (d : ℕ) (va : BitVec 64) (alloc : Bool)
  | vmmap (d : ℕ) (va : BitVec 64) (ka : Addr) (flags : BitVec 64)

namespace PtState

def call (s : PtState) : PtCall → Option PtState
  | .getPte d va alloc => (s.getPte d va alloc).map (·.1)
  | .vmmap d va ka flags => s.vmmap d va ka flags

/-- A sequence of calls. -/
def run (s : PtState) : List PtCall → Option PtState
  | [] => some s
  | c :: cs => (s.call c).bind fun s => s.run cs

end PtState

/-- The bits 12 to 47 of an address. -/
def vpn (va : BitVec 64) : ℕ := va.toNat / 2 ^ 12 % 2 ^ 36

/-- The call goes to the last-level table of the address, and makes it. -/
def PtCall.Covers (d : ℕ) (va : BitVec 64) : PtCall → Prop
  | .getPte e va' alloc => alloc = true ∧ e = d ∧ vpn va' / 2 ^ 9 = vpn va / 2 ^ 9
  | .vmmap e va' _ _ => e = d ∧ vpn va' / 2 ^ 9 = vpn va / 2 ^ 9

/-! ### The paths of addresses -/

/-- The path of the last-level table of an address. -/
def tablePath (va : BitVec 64) : List PtIndex := [pdIndex va 21, pdIndex va 30, pdIndex va 39]

theorem pdIndex_val (va : BitVec 64) (shift : ℕ) :
    (pdIndex va shift).val = va.toNat / 2 ^ shift % 2 ^ 9 := by
  have hmask := Nat.and_two_pow_sub_one_eq_mod ((va >>> shift).toNat) 9
  have hand : ((va >>> shift) &&& 0x1FF#64).toNat = va.toNat / 2 ^ shift % 2 ^ 9 := by
    rw [BitVec.toNat_and]
    refine hmask.trans ?_
    rw [BitVec.toNat_ushiftRight, Nat.shiftRight_eq_div_pow]
  show ((va >>> shift) &&& 0x1FF#64).toNat % nPtePerTable = _
  rw [hand]
  exact Nat.mod_mod _ _

/-- One last-level table serves `2 ^ 9` pages. -/
theorem tablePath_eq_iff (va va' : BitVec 64) :
    tablePath va = tablePath va' ↔ vpn va / 2 ^ 9 = vpn va' / 2 ^ 9 := by
  simp only [tablePath, List.cons.injEq, and_true, Fin.ext_iff, pdIndex_val, vpn]
  omega

/-- The page number is the path with the last index. -/
theorem vpn_eq_iff (va va' : BitVec 64) :
    vpn va = vpn va' ↔ tablePath va = tablePath va' ∧ pdIndex va 12 = pdIndex va' 12 := by
  rw [tablePath_eq_iff, Fin.ext_iff, pdIndex_val, pdIndex_val]
  unfold vpn
  omega

/-! ### The forest of the tables -/

/-- The link that `get_pte` follows. -/
def tableRadix : Radix Addr (BitVec 64) where
  child e := if e = 0 then 0 else p2k (pteAddress e)
  height := 3
  child_zero := rfl

theorem child_of_ne {e : BitVec 64} (h : e ≠ 0) : tableRadix.child e = p2k (pteAddress e) :=
  if_neg h

/-- `kalloc_page` takes the first page of the list and clears it. -/
theorem PageMem.kallocPage_eq {m m' : PageMem} {p : Addr} (h : m.kallocPage = some (p, m')) :
    m.free = p :: m'.free ∧ m'.words = Function.update m.words p (fun _ => 0) ∧
      m'.ref = Function.update m.ref (pageIndex p) 1 ∧ m'.zero = m.zero := by
  unfold kallocPage at h
  split at h
  · cases h
  · rename_i q free hfree
    cases h
    exact ⟨hfree, rfl, rfl, rfl⟩

theorem pteTable_entry_ne (a : BitVec 64) : a ||| pteTable ≠ 0 := by
  intro h
  have hbit : (a ||| pteTable)[0] = false := by rw [h]; rfl
  rw [BitVec.getElem_or, show pteTable[0] = true from rfl, Bool.or_true] at hbit
  cases hbit

namespace PtState

def forest (s : PtState) : Forest ℕ Addr PtIndex (BitVec 64) := ⟨s.pt, s.mem.words⟩

/-- The table at the end of a path of indices, the last one first. -/
abbrev node (s : PtState) (d : ℕ) (path : List PtIndex) : Addr := tableRadix.node s.forest d path

/-- The tables are pages that are in use, and no two paths share one. -/
structure Tables (s : PtState) : Prop where
  separate : tableRadix.Separate s.forest
  apart : ∀ d r, s.node d r ≠ 0 → s.node d r ∉ s.mem.free
  valid : ∀ d r, s.node d r ≠ 0 → ValidPage (s.node d r)
  pages : ∀ p ∈ s.mem.free, ValidPage p
  nodup : s.mem.free.Nodup

/-- What a walk of `d` along a path may have done: some free pages have become tables. -/
structure Walked (s t : PtState) (d : ℕ) (path : List PtIndex) : Prop where
  tables : tableRadix.Extends s.forest t.forest d path
  free : t.mem.free <:+ s.mem.free
  /-- a page that has left the list is a table -/
  used : ∀ p ∈ s.mem.free, p ∉ t.mem.free → ∃ q, t.node d q = p
  /-- and a new table is such a page -/
  fresh : ∀ e q, s.node e q = 0 → t.node e q ≠ 0 → t.node e q ∈ s.mem.free
  /-- a page that is in use and no table is as before -/
  data : ∀ p, p ∉ s.mem.free → (∀ e q, s.node e q ≠ p) → t.mem.words p = s.mem.words p
  ref : ∀ n, (∀ p ∈ s.mem.free, p ∉ t.mem.free → pageIndex p ≠ n) → t.mem.ref n = s.mem.ref n
  count : ∀ p ∈ s.mem.free, p ∉ t.mem.free → t.mem.ref (pageIndex p) = 1
  zero : t.mem.zero = s.mem.zero

variable {s t u : PtState} {d : ℕ} {r path : List PtIndex} {i : PtIndex} {p : Addr}

namespace Walked

protected theorem refl (s : PtState) (d : ℕ) (path : List PtIndex) : Walked s s d path where
  tables := .refl _ _ _
  free := List.suffix_rfl
  used _ hp hp' := (hp' hp).elim
  fresh _ _ hq hq' := (hq' hq).elim
  data _ _ _ := rfl
  ref _ _ := rfl
  count _ hp hp' := (hp' hp).elim
  zero := rfl

/-- A page in use that is no table does not become one. -/
theorem node_ne (h : Walked s t d path) (hfree : p ∉ s.mem.free) (hnode : ∀ e q, s.node e q ≠ p)
    (e : ℕ) (q : List PtIndex) : t.node e q ≠ p := by
  rintro rfl
  by_cases hq : s.node e q = 0
  · by_cases hq' : t.node e q = 0
    · exact hnode e q (hq.trans hq'.symm)
    · exact hfree (h.fresh e q hq hq')
  · exact hnode e q (h.tables.keep e q hq).symm

theorem trans (h : Walked s t d path) (hs : s.Tables) (h' : Walked t u d path) :
    Walked s u d path where
  tables := h.tables.trans h'.tables
  free := h'.free.trans h.free
  used p hp hpu := by
    by_cases hpt : p ∈ t.mem.free
    · exact h'.used p hpt hpu
    · -- a table that the first part has made stays
      obtain ⟨q, hq⟩ := h.used p hp hpt
      have hne : t.node d q ≠ 0 := by
        rw [hq]
        exact (hs.pages p hp).ne_zero
      exact ⟨q, (h'.tables.keep d q hne).trans hq⟩
  fresh e q hq hqu := by
    by_cases hqt : t.node e q = 0
    · exact h.free.subset (h'.fresh e q hqt hqu)
    · have hkeep : u.node e q = t.node e q := h'.tables.keep e q hqt
      rw [hkeep]
      exact h.fresh e q hq hqt
  data p hp hq := by
    have hpt : p ∉ t.mem.free := fun hmem => hp (h.free.subset hmem)
    rw [h'.data p hpt (h.node_ne hp hq), h.data p hp hq]
  ref n hn := by
    have hfirst : t.mem.ref n = s.mem.ref n :=
      h.ref n fun p hp hpt => hn p hp fun hpu => hpt (h'.free.subset hpu)
    rw [h'.ref n fun p hpt hpu => hn p (h.free.subset hpt) hpu, hfirst]
  count p hp hpu := by
    by_cases hpt : p ∈ t.mem.free
    · exact h'.count p hpt hpu
    · rw [h'.ref (pageIndex p), h.count p hp hpt]
      intro q hqt _ heq
      have hpq : q = p := (hs.pages q (h.free.subset hqt)).index_inj (hs.pages p hp) heq
      exact hpt (hpq ▸ hqt)
  zero := h'.zero.trans h.zero

theorem mono {path' : List PtIndex} (h : Walked s t d path) (hpath : path <:+ path') :
    Walked s t d path' :=
  { h with tables := h.tables.mono hpath }

end Walked

/-- The first free page becomes the table of a path. -/
theorem Tables.walked {p : Addr} (hs : s.Tables) (hfree : s.mem.free = p :: t.mem.free)
    (hgrows : tableRadix.Grows s.forest t.forest d r p) (hpath : r <:+ path)
    (hnone : s.node d r = 0) (hp : ∀ j, t.mem.words p j = 0)
    (hwords : ∀ e q j, s.node e q ≠ 0 → q.length = 3 →
      t.mem.words (s.node e q) j = s.mem.words (s.node e q) j)
    (hdata : ∀ q, q ≠ p → (∀ e r, s.node e r ≠ q) → t.mem.words q = s.mem.words q)
    (href : t.mem.ref = Function.update s.mem.ref (pageIndex p) 1)
    (hzero : t.mem.zero = s.mem.zero) : t.Tables ∧ Walked s t d path := by
  have hmem : p ∈ s.mem.free := by rw [hfree]; exact List.mem_cons_self
  have hnodup : p ∉ t.mem.free := by
    have hcons := hs.nodup
    rw [hfree] at hcons
    exact (List.nodup_cons.mp hcons).1
  have hsub : t.mem.free <:+ s.mem.free := hfree ▸ List.suffix_cons p t.mem.free
  have hpne : ∀ e q, s.node e q ≠ p := by
    rintro e q rfl
    exact hs.apart e q (hs.pages _ hmem).ne_zero hmem
  have honly : ∀ q ∈ s.mem.free, q ∉ t.mem.free → q = p := by
    intro q hq hqt
    rw [hfree] at hq
    exact (List.mem_cons.mp hq).resolve_right hqt
  have hcases : ∀ e q, t.node e q = p ∨ t.node e q = s.node e q := by
    intro e q
    by_cases hq : e = d ∧ q = r
    · obtain ⟨rfl, rfl⟩ := hq
      exact .inl hgrows.here
    · exact .inr (hgrows.other e q hq)
  constructor
  · constructor
    · exact hgrows.separate hs.separate hpne
    · intro e q hne hin
      rcases hcases e q with heq | heq
      · rw [heq] at hin
        exact hnodup hin
      · rw [heq] at hne hin
        exact hs.apart e q hne (hsub.subset hin)
    · intro e q hne
      rcases hcases e q with heq | heq
      · rw [heq]
        exact hs.pages p hmem
      · rw [heq] at hne ⊢
        exact hs.valid e q hne
    · exact fun q hq => hs.pages q (hsub.subset hq)
    · exact hs.nodup.sublist hsub.sublist
  · constructor
    · exact hgrows.extends hpath hnone hp hwords
    · exact hsub
    · intro q hq hqt
      exact ⟨r, by rw [honly q hq hqt]; exact hgrows.here⟩
    · intro e q hq hq'
      rcases hcases e q with heq | heq
      · rwa [heq]
      · exact (hq' (heq.trans hq)).elim
    · intro q hq hqn
      refine hdata q ?_ hqn
      rintro rfl
      exact hq hmem
    · intro n hn
      rw [href, Function.update_of_ne]
      exact fun heq => hn p hmem hnodup heq.symm
    · intro q hq hqt
      rw [honly q hq hqt, href, Function.update_self]
    · exact hzero

/-- A level of the walk. -/
theorem nextTable_spec {m : PageMem} {table : Addr} {alloc : Bool} (hs : s.Tables)
    (hr : s.node d r ≠ 0) (hlen : r.length < 3)
    (h : nextTable s.mem (s.node d r) i alloc = some (m, table)) :
    let t := { s with mem := m }
    t.Tables ∧ Walked s t d (i :: r) ∧ t.node d (i :: r) = table ∧
      (alloc = true → table ≠ 0) ∧ (alloc = false → m = s.mem) := by
  intro t
  have hcons : s.node d (i :: r) = tableRadix.child (s.mem.words (s.node d r) i) :=
    Radix.node_cons hr hlen
  unfold nextTable at h
  split at h
  · rename_i hword
    have hnone : s.node d (i :: r) = 0 := by rw [hcons, hword]; rfl
    split at h
    · rename_i halloc
      split at h
      · cases h
      · rename_i p m' hpage
        cases h
        obtain ⟨hfree, hwords, href, hzero⟩ := PageMem.kallocPage_eq hpage
        have hp : ValidPage p := hs.pages p (hfree ▸ List.mem_cons_self)
        have hpt : ∀ e q, s.node e q ≠ 0 → s.node e q ≠ p := by
          rintro e q hq rfl
          exact hs.apart e q hq (hfree ▸ List.mem_cons_self)
        -- the word that links the new page
        have hlink : t.mem.words (s.node d r) i = k2p p ||| pteTable := by
          show Function.update m'.words _ _ _ _ = _
          rw [Function.update_self, Function.update_self]
        have hother : ∀ q j, q ≠ p → ¬(q = s.node d r ∧ j = i) →
            t.mem.words q j = s.mem.words q j := by
          intro q j hq hne
          show Function.update m'.words _ _ q j = _
          rw [hwords]
          by_cases hqr : q = s.node d r
          · rw [hqr, Function.update_self, Function.update_of_ne fun hj => hne ⟨hqr, hj⟩,
              Function.update_of_ne (hqr ▸ hq)]
          · rw [Function.update_of_ne hqr, Function.update_of_ne hq]
        have hnew : ∀ j, t.mem.words p j = 0 := by
          intro j
          show Function.update m'.words _ _ p j = _
          rw [Function.update_of_ne (hpt d r hr).symm, hwords, Function.update_self]
        have hentry : p2k (pteAddress (t.mem.words (s.node d r) i)) = p := by
          rw [hlink]
          exact hp.p2k_entry (by decide)
        have hgrows : tableRadix.Grows s.forest t.forest d (i :: r) p := by
          refine Radix.node_add hs.separate hr hlen hnone rfl ?_ hnew fun e q j hq hne => ?_
          · rw [← hentry]
            exact child_of_ne (by rw [show t.forest.words = t.mem.words from rfl, hlink]
                                  exact pteTable_entry_ne _)
          · exact hother _ j (hpt e q hq) hne
        obtain ⟨htables, hwalked⟩ := hs.walked (t := t) hfree hgrows List.suffix_rfl hnone hnew
          (fun e q j hq hlenq => hother _ j (hpt e q hq) fun heq => by
            obtain ⟨rfl, rfl⟩ := hs.separate _ _ _ _ hq heq.1
            omega)
          (fun q hq hqn => funext fun j => hother q j hq fun heq => hqn d r heq.1.symm)
          href hzero
        refine ⟨htables, hwalked, ?_, fun _ => ?_, fun hfalse => ?_⟩
        · exact hgrows.here.trans hentry.symm
        · exact p2k_pteAddress_ne _
        · rw [halloc] at hfalse
          cases hfalse
    · rename_i halloc
      cases h
      exact ⟨hs, .refl _ _ _, hnone, fun htrue => (halloc htrue).elim, fun _ => rfl⟩
  · rename_i hword
    cases h
    refine ⟨hs, .refl _ _ _, hcons.trans (child_of_ne hword), fun _ => p2k_pteAddress_ne _,
      fun _ => rfl⟩

theorem walk_spec {alloc : Bool} : ∀ (is : List PtIndex) {s : PtState} {r : List PtIndex}
    {m : PageMem} {table : Addr}, s.Tables → s.node d r ≠ 0 → r.length + is.length ≤ 3 →
    walk s.mem (s.node d r) alloc is = some (m, table) →
    let t := { s with mem := m }
    t.Tables ∧ Walked s t d (is.reverse ++ r) ∧ t.node d (is.reverse ++ r) = table ∧
      (alloc = true → table ≠ 0) ∧ (alloc = false → m = s.mem)
  | [], s, r, m, table => by
    intro hs hr _ h
    cases h
    exact ⟨hs, .refl _ _ _, rfl, fun _ => hr, fun _ => rfl⟩
  | i :: is, s, r, m, table => by
    intro hs hr hlen h
    have hlen' : (i :: r).length + is.length ≤ 3 := by
      simp only [List.length_cons] at hlen ⊢
      omega
    have hlt : r.length < 3 := by
      rw [List.length_cons] at hlen
      omega
    have hpath : i :: r <:+ (i :: is).reverse ++ r := by
      rw [List.reverse_cons, List.append_assoc]
      exact List.suffix_append _ _
    unfold walk at h
    split at h
    · cases h
    · rename_i m₁ table₁ hnext
      obtain ⟨htables, hwalked, hnode, halloc, hfalse⟩ := nextTable_spec hs hr hlt hnext
      split at h
      · -- a level without a table
        rename_i hzero
        cases h
        refine ⟨htables, hwalked.mono hpath, ?_, fun htrue => (halloc htrue hzero).elim, hfalse⟩
        rw [List.reverse_cons, List.append_assoc]
        exact Radix.node_append_of_zero (hnode.trans hzero) _
      · rename_i hne
        rw [← hnode] at h hne
        obtain ⟨htables', hwalked', hnode', halloc', hfalse'⟩ := walk_spec is htables hne hlen' h
        rw [List.reverse_cons, List.append_assoc]
        exact ⟨htables', (hwalked.mono (List.suffix_append _ _)).trans hs hwalked', hnode', halloc',
          fun hf => (hfalse' hf).trans (hfalse hf)⟩

/-- A directory without tables gets a root table. -/
theorem Tables.newRoot {m : PageMem} (hs : s.Tables) (hroot : s.pt d = 0)
    (hpage : s.mem.kallocPage = some (p, m)) :
    let t : PtState := { mem := m, pt := Function.update s.pt d p }
    t.Tables ∧ Walked s t d [] ∧ t.pt d = p ∧ p ≠ 0 := by
  intro t
  obtain ⟨hfree, hwords, href, hzero⟩ := PageMem.kallocPage_eq hpage
  have hp : ValidPage p := hs.pages p (hfree ▸ List.mem_cons_self)
  have hpt : ∀ e q, s.node e q ≠ 0 → s.node e q ≠ p := by
    rintro e q hq rfl
    exact hs.apart e q hq (hfree ▸ List.mem_cons_self)
  have hother : ∀ q, q ≠ p → t.mem.words q = s.mem.words q := by
    intro q hq
    show m.words q = _
    rw [hwords, Function.update_of_ne hq]
  have hnew : ∀ j, t.mem.words p j = 0 := by
    intro j
    show m.words p j = 0
    rw [hwords, Function.update_self]
  have hgrows : tableRadix.Grows s.forest t.forest d [] p :=
    Radix.node_root rfl hroot hnew fun e q hq => hother _ (hpt e q hq)
  obtain ⟨htables, hwalked⟩ := hs.walked (t := t) hfree hgrows List.suffix_rfl hroot hnew
    (fun e q j hq _ => congrFun (hother _ (hpt e q hq)) j)
    (fun q hq _ => hother q hq) href hzero
  exact ⟨htables, hwalked, Function.update_self _ _ _, hp.ne_zero⟩

/-- What `get_pte` does: it adds tables along the path of the address, if `alloc`, and
points into the last one. -/
theorem getPte_spec {va : BitVec 64} {alloc : Bool} {o : Option PtePtr} (hs : s.Tables)
    (h : s.getPte d va alloc = some (t, o)) :
    t.Tables ∧ Walked s t d (tablePath va) ∧
      o = (if t.node d (tablePath va) = 0 then none
        else some (t.node d (tablePath va), pdIndex va 12)) ∧
      (alloc = true → t.node d (tablePath va) ≠ 0) ∧ (alloc = false → t = s) := by
  -- the walk from the root on
  have hwalk : ∀ {s : PtState} {m : PageMem} {table : Addr}, s.Tables → s.pt d ≠ 0 →
      walk s.mem (s.pt d) alloc [pdIndex va 39, pdIndex va 30, pdIndex va 21] = some (m, table) →
      let t := { s with mem := m }
      t.Tables ∧ Walked s t d (tablePath va) ∧ t.node d (tablePath va) = table ∧
        (alloc = true → table ≠ 0) ∧ (alloc = false → m = s.mem) := by
    intro s m table hs hroot h
    exact walk_spec _ (r := []) hs hroot (Nat.le_refl _) h
  unfold getPte at h
  by_cases hroot : s.pt d = 0
  · have hnone : s.node d [] = 0 := hroot
    cases alloc with
    | false =>
      simp only [hroot, if_true] at h
      cases h
      have hzero : s.node d (tablePath va) = 0 := by
        have happ := Radix.node_append_of_zero hnone (tablePath va)
        rwa [List.append_nil] at happ
      exact ⟨hs, .refl _ _ _, by rw [if_pos hzero], nofun, fun _ => rfl⟩
    | true =>
      simp only [hroot, if_true] at h
      cases hpage : s.mem.kallocPage with
      | none => simp [hpage] at h
      | some pm =>
        obtain ⟨p, m⟩ := pm
        simp only [hpage, Option.map_some] at h
        let s₁ : PtState := { mem := m, pt := Function.update s.pt d p }
        obtain ⟨htables, hwalked, hroot₁, hp⟩ := hs.newRoot hroot hpage
        rw [if_neg hp] at h
        split at h
        · cases h
        · rename_i m' table hw
          cases h
          rw [← hroot₁] at hw
          obtain ⟨htables', hwalked', hnode, halloc, -⟩ :=
            hwalk htables (by rw [hroot₁]; exact hp) hw
          refine ⟨htables', (hwalked.mono List.nil_suffix).trans hs hwalked', ?_, fun htrue => ?_, nofun⟩
          · rw [← hnode]
          · rw [hnode]
            exact halloc htrue
  · simp only [hroot, if_false] at h
    split at h
    · cases h
    · rename_i m table hw
      cases h
      obtain ⟨htables, hwalked, hnode, halloc, hfalse⟩ := hwalk hs hroot hw
      refine ⟨htables, hwalked, ?_, fun htrue => ?_, fun hf => ?_⟩
      · rw [← hnode]
      · rw [hnode]
        exact halloc htrue
      · rw [hfalse hf]

/-! ### Walks that end -/

theorem nextTable_false (m : PageMem) (table : Addr) (i : PtIndex) :
    ∃ p, nextTable m table i false = some (m, p) := by
  unfold nextTable
  split
  · exact ⟨0, rfl⟩
  · exact ⟨_, rfl⟩

theorem walk_false (m : PageMem) : ∀ (is : List PtIndex) (table : Addr),
    ∃ p, walk m table false is = some (m, p)
  | [], table => ⟨table, rfl⟩
  | i :: is, table => by
    obtain ⟨p, hp⟩ := nextTable_false m table i
    unfold walk
    rw [hp]
    by_cases hzero : p = 0
    · exact ⟨0, if_pos hzero⟩
    · obtain ⟨q, hq⟩ := walk_false m is p
      exact ⟨q, (if_neg hzero).trans hq⟩

/-- Without `alloc` nothing changes. -/
theorem getPte_false (s : PtState) (d : ℕ) (va : BitVec 64) :
    ∃ o, s.getPte d va false = some (s, o) := by
  unfold getPte
  by_cases hroot : s.pt d = 0
  · exact ⟨none, by simp [hroot]⟩
  · obtain ⟨p, hp⟩ := walk_false s.mem [pdIndex va 39, pdIndex va 30, pdIndex va 21] (s.pt d)
    simp only [hroot, if_false, hp]
    exact ⟨_, rfl⟩

theorem nextTable_true {m : PageMem} (hfree : m.free ≠ []) (table : Addr) (i : PtIndex) :
    ∃ m' p, nextTable m table i true = some (m', p) ∧ m.free.length ≤ m'.free.length + 1 := by
  unfold nextTable
  split
  · cases hlist : m.free with
    | nil => exact (hfree hlist).elim
    | cons q free =>
      refine ⟨_, _, by simp only [PageMem.kallocPage, hlist, if_true]; rfl, ?_⟩
      exact Nat.le_refl _
  · exact ⟨m, _, rfl, Nat.le_succ _⟩

theorem walk_true : ∀ (is : List PtIndex) (m : PageMem) (table : Addr),
    is.length ≤ m.free.length → ∃ r, walk m table true is = some r
  | [], m, table => fun _ => ⟨(m, table), rfl⟩
  | i :: is, m, table => by
    intro hlen
    rw [List.length_cons] at hlen
    have hfree : m.free ≠ [] := by
      intro hnil
      rw [hnil] at hlen
      exact Nat.not_succ_le_zero _ hlen
    obtain ⟨m', p, hnext, hle⟩ := nextTable_true hfree table i
    unfold walk
    rw [hnext]
    by_cases hzero : p = 0
    · exact ⟨_, if_pos hzero⟩
    · obtain ⟨r, hr⟩ := walk_true is m' p (by omega)
      exact ⟨r, (if_neg hzero).trans hr⟩

/-- Four free pages are enough for `get_pte`. -/
theorem getPte_true (hs : s.Tables) (va : BitVec 64) (hpages : 4 ≤ s.mem.free.length) :
    ∃ t pte, s.getPte d va true = some (t, some pte) := by
  have hsome : ∃ r, s.getPte d va true = some r := by
    unfold getPte
    by_cases hroot : s.pt d = 0
    · cases hlist : s.mem.free with
      | nil => rw [hlist] at hpages; exact (Nat.not_succ_le_zero _ hpages).elim
      | cons q free =>
        simp only [hroot, if_true, PageMem.kallocPage, hlist, Option.map_some]
        split
        · exact ⟨_, rfl⟩
        · obtain ⟨r, hr⟩ := walk_true [pdIndex va 39, pdIndex va 30, pdIndex va 21]
            { s.mem with
              free := free
              ref := Function.update s.mem.ref (pageIndex q) 1
              allocated := s.mem.allocated + 1
              words := Function.update s.mem.words q fun _ => 0 } q
            (by rw [hlist] at hpages; exact Nat.le_of_succ_le_succ hpages)
          rw [hr]
          exact ⟨_, rfl⟩
    · obtain ⟨r, hr⟩ := walk_true [pdIndex va 39, pdIndex va 30, pdIndex va 21] s.mem (s.pt d)
        (Nat.le_of_succ_le hpages)
      simp only [hroot, if_false, hr]
      exact ⟨_, rfl⟩
  obtain ⟨⟨t, o⟩, hr⟩ := hsome
  obtain ⟨-, -, ho, halloc, -⟩ := getPte_spec hs hr
  rw [if_neg (halloc rfl)] at ho
  exact ⟨t, _, ho ▸ hr⟩

/-! ### Entries -/

/-- The entry of an address is a word of its last-level table. -/
theorem entry_eq (hs : s.Tables) (d : ℕ) (va : BitVec 64) :
    s.entry d va = tableRadix.slot s.forest d (tablePath va) (pdIndex va 12) := by
  obtain ⟨o, ho⟩ := getPte_false s d va
  have hspec := (getPte_spec hs ho).2.2.1
  unfold entry Radix.slot
  rw [ho, hspec]
  by_cases hnone : s.node d (tablePath va) = 0
  · rw [if_pos hnone, if_pos hnone]
  · rw [if_neg hnone, if_neg hnone]
    rfl

/-- A walk changes no entry. -/
theorem Walked.entry (h : Walked s t d path) (hs : s.Tables) (ht : t.Tables) (e : ℕ)
    (va : BitVec 64) : t.entry e va = s.entry e va := by
  rw [entry_eq hs, entry_eq ht]
  exact h.tables.slot e (tablePath va) (pdIndex va 12) rfl

/-- The invariant looks at the tables and the free pages. -/
theorem Tables.congr (hs : s.Tables) (hnode : ∀ e q, t.node e q = s.node e q)
    (hfree : t.mem.free = s.mem.free) : t.Tables where
  separate e q e' q' hne heq := by
    have heq' : t.node e q = t.node e' q' := heq
    have hne' : t.node e q ≠ 0 := hne
    rw [hnode] at hne'
    rw [hnode, hnode] at heq'
    exact hs.separate e q e' q' hne' heq'
  apart e q := by
    rw [hnode, hfree]
    exact hs.apart e q
  valid e q := by
    rw [hnode]
    exact hs.valid e q
  pages := by
    rw [hfree]
    exact hs.pages
  nodup := by
    rw [hfree]
    exact hs.nodup

theorem writePte_words (s : PtState) (p : Addr) (i : PtIndex) (v : BitVec 64) :
    (s.writePte (p, i) v).forest.words =
      Function.update s.forest.words p (Function.update (s.forest.words p) i v) := rfl

/-- A store to an entry leaves the other pages alone. -/
theorem writePte_data (s : PtState) {p q : Addr} (i : PtIndex) (v : BitVec 64) (hne : q ≠ p) :
    (s.writePte (p, i) v).mem.words q = s.mem.words q := Function.update_of_ne hne _ _

@[simp] theorem writePte_zero (s : PtState) (pte : PtePtr) (v : BitVec 64) :
    (s.writePte pte v).mem.zero = s.mem.zero := rfl

@[simp] theorem writePte_free (s : PtState) (pte : PtePtr) (v : BitVec 64) :
    (s.writePte pte v).mem.free = s.mem.free := rfl

@[simp] theorem writePte_ref (s : PtState) (pte : PtePtr) (v : BitVec 64) :
    (s.writePte pte v).mem.ref = s.mem.ref := rfl

/-- A store to an entry leaves the tables as they are. -/
theorem writePte_node (hs : s.Tables) (hr : s.node d r ≠ 0) (hlen : r.length = 3)
    (v : BitVec 64) (e : ℕ) (q : List PtIndex) :
    (s.writePte (s.node d r, i) v).node e q = s.node e q := by
  have hroot : (s.writePte (s.node d r, i) v).forest.root = s.forest.root := rfl
  refine Radix.node_congr hroot (fun e q j hq hlt => ?_) e q
  rw [writePte_words, Function.update_of_ne]
  · intro heq
    obtain ⟨rfl, rfl⟩ := hs.separate _ _ _ _ hq heq
    exact absurd hlt (by rw [hlen]; exact Nat.lt_irrefl 3)

theorem Tables.writePte (hs : s.Tables) (hr : s.node d r ≠ 0) (hlen : r.length = 3)
    (v : BitVec 64) : (s.writePte (s.node d r, i) v).Tables :=
  hs.congr (writePte_node hs hr hlen v) rfl

/-- A store to the entry of an address is seen at the addresses of its page. -/
theorem writePte_entry (hs : s.Tables) {va : BitVec 64} (hr : s.node d (tablePath va) ≠ 0)
    (v : BitVec 64) (e : ℕ) (va' : BitVec 64) :
    (s.writePte (s.node d (tablePath va), pdIndex va 12) v).entry e va' =
      if e = d ∧ vpn va' = vpn va then v else s.entry e va' := by
  have hnode := writePte_node (i := pdIndex va 12) hs hr rfl v e (tablePath va')
  rw [entry_eq (hs.writePte hr rfl v), entry_eq hs]
  split
  · rename_i hsame
    obtain ⟨rfl, hvpn⟩ := hsame
    obtain ⟨hpath, hidx⟩ := (vpn_eq_iff va' va).mp hvpn
    rw [hpath] at hnode ⊢
    unfold Radix.slot
    rw [show tableRadix.node _ e (tablePath va) = s.node e (tablePath va) from hnode, if_neg hr,
      hidx, writePte_words, Function.update_self, Function.update_self]
  · rename_i hother
    refine Radix.slot_congr hnode fun hne => ?_
    rw [writePte_words]
    by_cases htable : tableRadix.node s.forest e (tablePath va') = s.node d (tablePath va)
    · obtain ⟨rfl, hpath⟩ := hs.separate _ _ _ _ hne htable
      rw [htable, Function.update_self, Function.update_of_ne]
      exact fun hidx => hother ⟨rfl, (vpn_eq_iff va' va).mpr ⟨hpath, hidx⟩⟩
    · rw [Function.update_of_ne htable]

/-! ### Calls -/

/-- What `vmmap` does: a walk, then one store into the entry. -/
theorem vmmap_spec {va : BitVec 64} {ka : Addr} {flags : BitVec 64} (hs : s.Tables)
    (h : s.vmmap d va ka flags = some t) :
    ∃ u, u.Tables ∧ Walked s u d (tablePath va) ∧ u.node d (tablePath va) ≠ 0 ∧
      t = { pt := u.pt
            mem := (u.writePte (u.node d (tablePath va), pdIndex va 12)
              (k2p ka ||| flags ||| pteTable)).mem.refPage ka } := by
  unfold vmmap at h
  split at h
  · rename_i u pte hget
    cases h
    obtain ⟨htables, hwalked, ho, halloc, -⟩ := getPte_spec hs hget
    rw [if_neg (halloc rfl)] at ho
    cases ho
    exact ⟨u, htables, hwalked, halloc rfl, rfl⟩
  · cases h

/-- A call keeps the forest and the tables in it, and makes the last-level tables that it
covers. -/
theorem call_spec {c : PtCall} (hs : s.Tables) (h : s.call c = some t) :
    t.Tables ∧ (∀ e q, s.node e q ≠ 0 → t.node e q = s.node e q) ∧
      ∀ e va, t.node e (tablePath va) ≠ 0 ↔ s.node e (tablePath va) ≠ 0 ∨ c.Covers e va := by
  -- a walk makes the table at the end of its path at most
  have hmade : ∀ {d u va}, Walked s u d (tablePath va) → ∀ e va',
      u.node e (tablePath va') ≠ 0 → s.node e (tablePath va') ≠ 0 ∨
        d = e ∧ vpn va / 2 ^ 9 = vpn va' / 2 ^ 9 := by
    intro d u va hwalked e va' hne
    by_cases hzero : s.node e (tablePath va') = 0
    · obtain ⟨rfl, hsuffix⟩ := hwalked.tables.grow e _ hzero hne
      exact .inr ⟨rfl, (tablePath_eq_iff va va').mp (hsuffix.eq_of_length rfl).symm⟩
    · exact .inl hzero
  have hkept : ∀ {d u path}, Walked s u d path → ∀ e q, s.node e q ≠ 0 → u.node e q ≠ 0 := by
    intro d u path hwalked e q hne
    rwa [show u.node e q = s.node e q from hwalked.tables.keep e q hne]
  have hcovered : ∀ {d : ℕ} {u : PtState} {va : BitVec 64}, u.node d (tablePath va) ≠ 0 → ∀ e va',
      d = e ∧ vpn va / 2 ^ 9 = vpn va' / 2 ^ 9 → u.node e (tablePath va') ≠ 0 := by
    rintro d u va hne _ va' ⟨rfl, hvpn⟩
    rwa [← (tablePath_eq_iff va va').mpr hvpn]
  cases c with
  | getPte d va alloc =>
    obtain ⟨⟨u, o⟩, hget, rfl⟩ := Option.map_eq_some_iff.mp h
    obtain ⟨htables, hwalked, -, halloc, hfalse⟩ := getPte_spec hs hget
    refine ⟨htables, hwalked.tables.keep, fun e va' => ⟨fun hne => ?_, ?_⟩⟩
    · cases alloc with
      | false =>
        rw [hfalse rfl] at hne
        exact .inl hne
      | true => exact (hmade hwalked e va' hne).imp_right fun hcov => ⟨rfl, hcov⟩
    · rintro (hne | ⟨halloc', hcov⟩)
      · exact hkept hwalked e _ hne
      · exact hcovered (halloc halloc') e va' hcov
  | vmmap d va ka flags =>
    obtain ⟨u, htables, hwalked, hne, ht⟩ := vmmap_spec hs h
    have hnode : ∀ e q, t.node e q = u.node e q := by
      subst ht
      exact writePte_node (i := pdIndex va 12) htables hne rfl (k2p ka ||| flags ||| pteTable)
    have hfree : t.mem.free = u.mem.free := by
      subst ht
      rfl
    refine ⟨htables.congr hnode hfree, fun e q hq => ?_, fun e va' => ?_⟩
    · exact (hnode e q).trans (hwalked.tables.keep e q hq)
    · rw [hnode]
      constructor
      · exact hmade hwalked e va'
      · rintro (hne' | hcov)
        · exact hkept hwalked e _ hne'
        · exact hcovered hne e va' hcov

end PtState

/-- What the page tables are for: the entry of each page of each directory. -/
abbrev PageMap := ℕ → ℕ → BitVec 64

/-- A call on the map. -/
def PtCall.apply (m : PageMap) : PtCall → PageMap
  | .getPte _ _ _ => m
  | .vmmap d va ka flags =>
    Function.update m d (Function.update (m d) (vpn va) (k2p ka ||| flags ||| pteTable))

namespace PtState

variable {s t : PtState} {m : PageMap}

/-- The entries of all addresses are those of the map. -/
def Shows (s : PtState) (m : PageMap) : Prop := ∀ d va, s.entry d va = m d (vpn va)

/-- A call on the tables is the call on the map. -/
theorem call_shows {c : PtCall} (hs : s.Tables) (hm : s.Shows m) (h : s.call c = some t) :
    t.Shows (c.apply m) := by
  intro e va'
  cases c with
  | getPte d va alloc =>
    obtain ⟨⟨u, o⟩, hget, rfl⟩ := Option.map_eq_some_iff.mp h
    obtain ⟨htables, hwalked, -⟩ := getPte_spec hs hget
    exact (hwalked.entry hs htables e va').trans (hm e va')
  | vmmap d va ka flags =>
    obtain ⟨u, htables, hwalked, hne, rfl⟩ := vmmap_spec hs h
    have hwrite := writePte_entry htables hne (k2p ka ||| flags ||| pteTable) e va'
    have hwalk : u.entry e va' = m e (vpn va') := (hwalked.entry hs htables e va').trans (hm e va')
    -- the reference count is not read
    have href : ∀ w : PtState, w.Tables →
        entry { pt := w.pt, mem := w.mem.refPage ka } e va' = w.entry e va' := by
      intro w hw
      have hw' : Tables { pt := w.pt, mem := w.mem.refPage ka } := hw.congr (fun _ _ => rfl) rfl
      exact (entry_eq hw' e va').trans (entry_eq hw e va').symm
    refine (href _ (htables.writePte hne rfl _)).trans (hwrite.trans ?_)
    show _ = Function.update m d _ e (vpn va')
    by_cases hd : e = d
    · subst hd
      rw [Function.update_self]
      by_cases hvpn : vpn va' = vpn va
      · rw [if_pos ⟨rfl, hvpn⟩, hvpn, Function.update_self]
      · rw [if_neg fun hand => hvpn hand.2, Function.update_of_ne hvpn, hwalk]
    · rw [if_neg fun hand => hd hand.1, Function.update_of_ne hd, hwalk]

/-- What a sequence of calls keeps and makes. -/
theorem run_spec : ∀ (cs : List PtCall) {s : PtState}, s.Tables → s.run cs = some t →
    t.Tables ∧ (∀ e q, s.node e q ≠ 0 → t.node e q = s.node e q) ∧
      ∀ e va, t.node e (tablePath va) ≠ 0 ↔
        s.node e (tablePath va) ≠ 0 ∨ ∃ c ∈ cs, c.Covers e va
  | [], s => by
    intro hs h
    cases h
    exact ⟨hs, fun _ _ _ => rfl, by simp⟩
  | c :: cs, s => by
    intro hs h
    obtain ⟨s₁, hcall, hrun⟩ := Option.bind_eq_some_iff.mp h
    obtain ⟨htables, hkeep, hmade⟩ := call_spec hs hcall
    obtain ⟨htables', hkeep', hmade'⟩ := run_spec cs htables hrun
    refine ⟨htables', fun e q hq => ?_, fun e va => ?_⟩
    · have hq₁ := hkeep e q hq
      exact (hkeep' e q (by rwa [hq₁])).trans hq₁
    · rw [hmade', hmade, or_assoc, List.exists_mem_cons_iff]

/-- And what it writes. -/
theorem run_shows : ∀ (cs : List PtCall) {s : PtState} {m : PageMap}, s.Tables → s.Shows m →
    s.run cs = some t → t.Shows (cs.foldl PtCall.apply m)
  | [], s, m => by
    intro _ hm h
    cases h
    exact hm
  | c :: cs, s, m => by
    intro hs hm h
    obtain ⟨s₁, hcall, hrun⟩ := Option.bind_eq_some_iff.mp h
    exact run_shows cs (call_spec hs hcall).1 (call_shows hs hm hcall) hrun

/-- The directories start without tables, or with an empty root table of their own. -/
structure Fresh (s : PtState) : Prop where
  pages : ∀ p ∈ s.mem.free, ValidPage p
  nodup : s.mem.free.Nodup
  root : ∀ d, s.pt d ≠ 0 → ValidPage (s.pt d) ∧ s.pt d ∉ s.mem.free ∧
    (∀ i, s.mem.words (s.pt d) i = 0) ∧ ∀ e, s.pt e = s.pt d → e = d

theorem Fresh.node_cons (h : s.Fresh) (d : ℕ) (i : PtIndex) (r : List PtIndex) :
    s.node d (i :: r) = 0 := by
  induction r generalizing i with
  | nil =>
    by_cases hroot : s.pt d = 0
    · exact Radix.node_cons_of_zero hroot
    · have hnil : s.node d [] ≠ 0 := hroot
      refine (Radix.node_cons hnil (by decide)).trans ?_
      show tableRadix.child (s.mem.words (s.pt d) i) = 0
      rw [(h.root d hroot).2.2.1 i]
      exact tableRadix.child_zero
  | cons j r ih => exact Radix.node_cons_of_zero (ih j)

theorem Fresh.tables (h : s.Fresh) : s.Tables := by
  have hnil : ∀ {d r}, s.node d r ≠ 0 → r = [] := by
    intro d r hne
    cases r with
    | nil => rfl
    | cons i r => exact (hne (h.node_cons d i r)).elim
  refine ⟨fun d r e q hne heq => ?_, fun d r hne => ?_, fun d r hne => ?_, h.pages, h.nodup⟩
  · have hne' : s.node e q ≠ 0 := by
      rwa [show s.node e q = s.node d r from heq.symm]
    obtain rfl := hnil hne
    obtain rfl := hnil hne'
    exact ⟨((h.root d hne).2.2.2 e heq.symm).symm, rfl⟩
  · obtain rfl := hnil hne
    exact (h.root d hne).2.1
  · obtain rfl := hnil hne
    exact (h.root d hne).1

/-- All entries are empty. -/
theorem Fresh.shows (h : s.Fresh) : s.Shows fun _ _ => 0 := by
  intro d va
  rw [entry_eq h.tables]
  exact if_pos (h.node_cons d _ _)

/-- Pointers to entries, also those of different times. -/
theorem pte_inj {u t₁ u₁ : PtState} {d d' : ℕ} {va va' : BitVec 64} {alloc alloc' : Bool}
    {x y : PtePtr} {cs : List PtCall} (ht : t.Tables) (hx : t.getPte d va alloc = some (t₁, some x))
    (hrun : t₁.run cs = some u) (hy : u.getPte d' va' alloc' = some (u₁, some y)) :
    x = y ↔ d = d' ∧ vpn va = vpn va' := by
  have hsome : ∀ {w : PtState} {d va} {z : PtePtr},
      some z = (if w.node d (tablePath va) = 0 then none
        else some (w.node d (tablePath va), pdIndex va 12)) →
      w.node d (tablePath va) ≠ 0 ∧ z = (w.node d (tablePath va), pdIndex va 12) := by
    intro w d va z hz
    split at hz
    · cases hz
    · rename_i hne
      cases hz
      exact ⟨hne, rfl⟩
  obtain ⟨htables₁, -, hox, -⟩ := getPte_spec ht hx
  obtain ⟨hnx, rfl⟩ := hsome hox
  obtain ⟨hu, hkeep, -⟩ := run_spec cs htables₁ hrun
  obtain ⟨hu₁, hwalked, hoy, -⟩ := getPte_spec hu hy
  obtain ⟨hny, rfl⟩ := hsome hoy
  -- the first slot is still where it was
  have hxu : u.node d (tablePath va) = t₁.node d (tablePath va) := hkeep d _ hnx
  have hxu₁ : u₁.node d (tablePath va) = u.node d (tablePath va) :=
    hwalked.tables.keep d _ (by rwa [← hxu] at hnx)
  rw [← hxu, ← hxu₁] at hnx ⊢
  rw [hu₁.separate.slot_inj hnx, vpn_eq_iff]

end PtState

/-- The page of a run. -/
def ptPage (n : ℕ) : Addr := 0xffff000040000000#64 + BitVec.ofNat 64 (4096 * n)

/-- Eight free pages, the first a zeroed root table. -/
def ptStart : PtState where
  mem :=
    { free := (List.range 8).map fun n => ptPage (n + 1)
      ref := fun _ => 0
      allocated := 1
      zero := 0
      words := fun _ _ => 0 }
  pt := fun d => if d = 0 then ptPage 0 else 0

theorem ptStart_pages : ∀ p ∈ ptStart.mem.free, ValidPage p := by
  have hvalid : ∀ n ∈ List.range 8, ValidPage (ptPage (n + 1)) := by decide
  exact List.forall_mem_map.mpr hvalid

theorem ptStart_root : ValidPage (ptStart.pt 0) ∧ ptStart.pt 0 ∉ ptStart.mem.free := by
  decide

theorem ptStart_fresh : ptStart.Fresh := by
  have hpt : ∀ d, ptStart.pt d = if d = 0 then ptPage 0 else 0 := fun _ => rfl
  have hzero : ∀ d, ptStart.pt d ≠ 0 → d = 0 := by
    intro d hd
    by_contra hne
    rw [hpt, if_neg hne] at hd
    exact hd rfl
  refine ⟨ptStart_pages, by decide, fun d hd => ?_⟩
  obtain rfl := hzero d hd
  exact ⟨ptStart_root.1, ptStart_root.2, fun _ => rfl, fun e he => hzero e (he ▸ hd)⟩

/-- The page tables are a map from page numbers to entries. -/
theorem pageTable_map {s t : PtState} {calls : List PtCall} (hs : s.Fresh)
    (hrun : s.run calls = some t) :
    -- what the tables hold after the calls
    (∀ d va, t.entry d va = calls.foldl PtCall.apply (fun _ _ => 0) d (vpn va)) ∧
    -- two addresses have one slot, now and later, just when they are in one page
    (∀ d va alloc t₁ x, t.getPte d va alloc = some (t₁, some x) →
      t₁.mem.words x.1 x.2 = t.entry d va ∧
      ∀ more u d' va' alloc' u₁ y, t₁.run more = some u →
        u.getPte d' va' alloc' = some (u₁, some y) → (x = y ↔ d = d' ∧ vpn va = vpn va')) ∧
    -- `vmmap` writes the entry of its page and no other
    (∀ d va ka flags u, t.vmmap d va ka flags = some u →
      u.entry d va = k2p ka ||| flags ||| pteTable ∧
      (ValidPage ka → pteAddress flags = 0 →
        pteAddress (u.entry d va) = k2p ka ∧ pteFlags (u.entry d va) = flags ||| pteTable) ∧
      ∀ e va', ¬(e = d ∧ vpn va' = vpn va) → u.entry e va' = t.entry e va') ∧
    -- without `alloc` nothing is changed, and `NULL` says that no call has made the table
    (∀ d va, ∃ o, t.getPte d va false = some (t, o) ∧
      (o = none ↔ ¬∃ c ∈ calls, c.Covers d va)) ∧
    -- with `alloc` there is always a slot, while there are pages
    ∀ d va, 4 ≤ t.mem.free.length → ∃ u x, t.getPte d va true = some (u, some x) := by
  obtain ⟨ht, -, hmade⟩ := PtState.run_spec calls hs.tables hrun
  have hshows := PtState.run_shows calls hs.tables hs.shows hrun
  refine ⟨hshows, fun d va alloc t₁ x hx => ⟨?_, ?_⟩, fun d va ka flags u hu => ?_,
    fun d va => ?_, fun d va hpages => PtState.getPte_true ht va hpages⟩
  · obtain ⟨ht₁, hwalked, ho, -⟩ := PtState.getPte_spec ht hx
    rw [← hwalked.entry ht ht₁, PtState.entry_eq ht₁]
    unfold Radix.slot
    split at ho
    · cases ho
    · rename_i hne
      cases ho
      rw [if_neg hne]
      rfl
  · intro more u d' va' alloc' u₁ y hmore hy
    exact PtState.pte_inj ht hx hmore hy
  · have hshows' := PtState.call_shows (c := .vmmap d va ka flags) ht hshows hu
    have hentry : u.entry d va = k2p ka ||| flags ||| pteTable := by
      rw [hshows' d va]
      simp only [PtCall.apply, Function.update_self]
    refine ⟨hentry, fun hka hflags => ?_, fun e va' hne => ?_⟩
    · have hall : pteAddress (flags ||| pteTable) = 0 := by
        rw [pteAddress_or, hflags]
        rfl
      rw [hentry, BitVec.or_assoc]
      exact ⟨hka.address_entry hall, hka.flags_entry hall⟩
    · rw [hshows' e va', hshows e va']
      simp only [PtCall.apply]
      by_cases hd : e = d
      · subst hd
        rw [Function.update_self, Function.update_of_ne fun hvpn => hne ⟨rfl, hvpn⟩]
      · rw [Function.update_of_ne hd]
  · obtain ⟨o, ho⟩ := PtState.getPte_false t d va
    have hspec := (PtState.getPte_spec ht ho).2.2.1
    refine ⟨o, ho, ?_⟩
    have hnone : o = none ↔ t.node d (tablePath va) = 0 := by
      rw [hspec]
      split <;> simp_all
    rw [hnone, ← not_iff_not, not_not, show (¬t.node d (tablePath va) = 0) ↔ _ from hmade d va]
    exact or_iff_right fun hne => hne (hs.node_cons d _ _)

/-- A page at `0x40001000`, seen at an address in it and at one beside it. -/
theorem pageTable_map_one : ∃ t,
    ptStart.run [.vmmap 0 0x40001000#64 (ptPage 9) 0x747#64] = some t ∧
      t.entry 0 0x40001fff#64 = k2p (ptPage 9) ||| 0x747#64 ||| pteTable ∧
      t.entry 0 0x40002000#64 = 0 := by
  have hsome : (ptStart.run [.vmmap 0 0x40001000#64 (ptPage 9) 0x747#64]).isSome := by
    decide
  obtain ⟨t, ht⟩ := Option.isSome_iff_exists.mp hsome
  have hmap := (pageTable_map ptStart_fresh ht).1
  exact ⟨t, ht, (hmap 0 0x40001fff#64).trans (by decide),
    (hmap 0 0x40002000#64).trans (by decide)⟩

/-- Flags 0 are not the flags that are read back. -/
theorem vmmap_flags_changed : ptStart.Fresh ∧ ValidPage (ptPage 9) ∧
    ∃ t, ptStart.vmmap 0 0x40001000#64 (ptPage 9) 0#64 = some t ∧
      pteFlags (t.entry 0 0x40001000#64) ≠ 0#64 := by
  have hflags : (ptStart.vmmap 0 0x40001000#64 (ptPage 9) 0#64).map
      (fun t => pteFlags (t.entry 0 0x40001000#64)) = some 3#64 := by
    decide
  obtain ⟨t, ht, hread⟩ := Option.map_eq_some_iff.mp hflags
  exact ⟨ptStart_fresh, by decide, t, ht, by rw [hread]; decide⟩

end OsLab
