/-
Pages of memory (`kalloc_page`, `ref_page` and `kfree_page` of `kernel/mem.c`, the
address macros of `aarch64/mmu.h`).

A page is named by its kernel address and holds 512 words.  The list `pages` is the stack
of free pages; `page_refs` is indexed by the number of the physical page.

* `ValidPage` — a page that a page-table entry can point to; such a page is found again
  from an entry (`ValidPage.p2k_entry`), and from its number (`ValidPage.index_inj`).
-/
import Mathlib.Data.BitVec
import Mathlib.Data.List.Nodup
import Mathlib.Logic.Function.Basic
import Mathlib.Tactic.Common

namespace OsLab

/-- A kernel address. -/
abbrev Addr := BitVec 64

/-- `KSPACE_MASK` -/
abbrev kspaceMask : BitVec 64 := 0xffff000000000000#64

/-- `K2P` -/
def k2p (addr : Addr) : BitVec 64 := addr - kspaceMask

/-- `P2K` -/
def p2k (addr : BitVec 64) : Addr := addr + kspaceMask

/-- The bits that `PTE_ADDRESS` takes off. -/
abbrev pteFlagMask : BitVec 64 := 0xFFFF000000000FFF#64

/-- `PTE_ADDRESS` -/
def pteAddress (pte : BitVec 64) : BitVec 64 := pte &&& ~~~pteFlagMask

/-- `PTE_FLAGS` -/
def pteFlags (pte : BitVec 64) : BitVec 64 := pte &&& pteFlagMask

/-- `N_PTE_PER_TABLE` -/
abbrev nPtePerTable : ℕ := 512

theorem nPtePerTable_neZero : NeZero nPtePerTable := ⟨by decide⟩

/-- The words of a page. -/
abbrev PageData := Fin nPtePerTable → BitVec 64

/-- `page_refs[K2P(p)/PAGE_SIZE]` -/
def pageIndex (p : Addr) : ℕ := (k2p p).toNat / 4096

/-- The pages. -/
structure PageMem where
  /-- `pages`, from its head on -/
  free : List Addr
  /-- `page_refs` -/
  ref : ℕ → ℤ
  /-- `alloc_page_cnt` -/
  allocated : ℤ
  /-- `zero_page` -/
  zero : Addr
  words : Addr → PageData

namespace PageMem

/-- A store into a page. -/
def write (m : PageMem) (p : Addr) (i : Fin nPtePerTable) (v : BitVec 64) : PageMem :=
  { m with words := Function.update m.words p (Function.update (m.words p) i v) }

/-- `kalloc_page`; `none` when there is no page, and `memset` writes to `NULL`. -/
def kallocPage (m : PageMem) : Option (Addr × PageMem) :=
  match m.free with
  | [] => none
  | p :: free => some (p, { m with
      free := free
      ref := Function.update m.ref (pageIndex p) 1
      allocated := m.allocated + 1
      words := Function.update m.words p fun _ => 0 })

/-- `ref_page` -/
def refPage (m : PageMem) (p : Addr) : PageMem :=
  { m with ref := Function.update m.ref (pageIndex p) (m.ref (pageIndex p) + 1) }

@[simp] theorem refPage_words (m : PageMem) (p : Addr) : (m.refPage p).words = m.words := rfl

/-- `kfree_page`; a page on the list has the address of the next one in its first word. -/
def kfreePage (m : PageMem) (p : Addr) : PageMem :=
  let m := { m with ref := Function.update m.ref (pageIndex p) (m.ref (pageIndex p) - 1) }
  if m.ref (pageIndex p) = 0 ∧ p ≠ m.zero then
    { m.write p 0 (m.free.headD 0) with
      free := p :: m.free
      allocated := m.allocated - 1 }
  else m

end PageMem

/-! ### Addresses in entries -/

/-- A page-aligned address of the kernel space, whose physical address has 48 bits. -/
def ValidPage (p : Addr) : Prop := pteAddress (k2p p) = k2p p

instance (p : Addr) : Decidable (ValidPage p) := inferInstanceAs (Decidable (_ = _))

@[simp] theorem p2k_k2p (p : Addr) : p2k (k2p p) = p := by
  unfold p2k k2p
  exact BitVec.sub_add_cancel p kspaceMask

theorem k2p_injective {p q : Addr} (h : k2p p = k2p q) : p = q := by
  rw [← p2k_k2p p, ← p2k_k2p q, h]

theorem pteAddress_or (a b : BitVec 64) : pteAddress (a ||| b) = pteAddress a ||| pteAddress b := by
  unfold pteAddress
  ext i hi
  simp only [BitVec.getElem_and, BitVec.getElem_or]
  exact Bool.and_or_distrib_right _ _ _

theorem pteFlags_or (a b : BitVec 64) : pteFlags (a ||| b) = pteFlags a ||| pteFlags b := by
  unfold pteFlags
  ext i hi
  simp only [BitVec.getElem_and, BitVec.getElem_or]
  exact Bool.and_or_distrib_right _ _ _

/-- Address bits are no flags. -/
theorem pteFlags_pteAddress (a : BitVec 64) : pteFlags (pteAddress a) = 0 := by
  unfold pteFlags pteAddress
  rw [BitVec.and_assoc]
  simp

/-- Flags without address bits. -/
theorem pteFlags_of_address {a : BitVec 64} (h : pteAddress a = 0) : pteFlags a = a := by
  unfold pteFlags
  unfold pteAddress at h
  ext i hi
  have hbit := congrArg (fun x : BitVec 64 => x[i]) h
  simp only [BitVec.getElem_and, BitVec.getElem_not] at hbit ⊢
  cases ha : a[i] <;> simp_all

/-- The address of an entry is never `NULL`. -/
theorem p2k_pteAddress_ne (e : BitVec 64) : p2k (pteAddress e) ≠ 0 := by
  intro h
  have haddr : pteAddress e = 0 - kspaceMask := by
    rw [← h, p2k, BitVec.add_sub_cancel]
  -- the only physical address that would give it has more than 48 bits
  have hbits : pteAddress e &&& pteFlagMask = 0 := pteFlags_pteAddress e
  rw [haddr] at hbits
  revert hbits
  decide

namespace ValidPage

variable {p q : Addr} {flags : BitVec 64}

theorem ne_zero (h : ValidPage p) : p ≠ 0 := by
  rintro rfl
  revert h
  decide

/-- The address of an entry with flags. -/
theorem address_entry (h : ValidPage p) (hflags : pteAddress flags = 0) :
    pteAddress (k2p p ||| flags) = k2p p := by
  rw [pteAddress_or, hflags, h]
  exact BitVec.or_zero

/-- So the page is found again. -/
theorem p2k_entry (h : ValidPage p) (hflags : pteAddress flags = 0) :
    p2k (pteAddress (k2p p ||| flags)) = p := by
  rw [h.address_entry hflags, p2k_k2p]

/-- And so are the flags. -/
theorem flags_entry (h : ValidPage p) (hflags : pteAddress flags = 0) :
    pteFlags (k2p p ||| flags) = flags := by
  rw [pteFlags_or, ← h, pteFlags_pteAddress, pteFlags_of_address hflags]
  show 0#64 ||| flags = flags
  exact BitVec.zero_or

theorem toNat_mod (h : ValidPage p) : (k2p p).toNat % 4096 = 0 := by
  have hlow : k2p p &&& 0xFFF#64 = 0 := by
    rw [← h, pteAddress, BitVec.and_assoc]
    exact BitVec.and_zero
  have hnat := congrArg BitVec.toNat hlow
  rw [BitVec.toNat_and] at hnat
  exact (Nat.and_two_pow_sub_one_eq_mod (k2p p).toNat 12).symm.trans hnat

/-- Two pages have two numbers. -/
theorem index_inj (hp : ValidPage p) (hq : ValidPage q) (h : pageIndex p = pageIndex q) :
    p = q := by
  have hpm := hp.toNat_mod
  have hqm := hq.toNat_mod
  unfold pageIndex at h
  exact k2p_injective (BitVec.eq_of_toNat_eq (by omega))

end ValidPage

end OsLab
