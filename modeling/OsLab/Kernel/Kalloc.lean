/-
Small blocks (`kalloc` and `kfree` of `kernel/mem.c`).

A page of the allocator starts with the size of its blocks.  The free blocks of one size
are a list that is threaded through the blocks themselves; the lists start in
`memory_table`.  The words of a block that has been handed out belong to its owner, who
may store anything there.

* `KallocState.Inv` — every block is on one list, or is handed out, or neither, and is a
  piece of a page whose header holds its size;
* `KallocState.Block.apart` — two blocks do not overlap;
* `kalloc_sound`, `kfree_returns` — what this means for whoever calls `kalloc` and `kfree`.
-/
import OsLab.Lib.Chain
import OsLab.Lib.System
import Mathlib.Data.Nat.ModEq
import Mathlib.Tactic.Ring

namespace OsLab

/-- `PAGE_SIZE` -/
abbrev pageSize : ℕ := 4096

/-- The loop of `pow`; the exponent has at most as many bits as there are rounds left. -/
def powLoop : ℕ → ℕ → ℕ → ℕ → ℕ
  | 0, ans, _, _ => ans
  | n + 1, ans, a, b =>
    if b > 0 then
      powLoop n (if b % 2 = 1 then ans * a % 2 ^ 64 else ans) (a * a % 2 ^ 64) (b / 2)
    else ans

/-- `pow` -/
def pow (a b : ℕ) : ℕ := powLoop 64 1 a b

/-- The loop of `get_lowest_pow`, with the number of rounds left. -/
def lowestPowLoop : ℕ → ℕ → ℕ → ℕ
  | 0, _, _ => 12
  | n + 1, i, size => if size = 0 then i else lowestPowLoop n (i + 1) (size / 2)

/-- `get_lowest_pow` -/
def getLowestPow (size : ℕ) : ℕ :=
  if size = 0 then 0 else lowestPowLoop 13 0 (size - 1)

/-- `get_page_header` -/
def getPageHeader (p : ℕ) : ℕ := p - p % pageSize

/-- The words in memory by their addresses, and the heads of the free lists. -/
structure KallocState where
  mem : ℕ → ℕ
  /-- `memory_table[i].next` -/
  table : ℕ → ℕ
  /-- the blocks that are handed out, with the sizes asked for -/
  live : List (ℕ × ℕ)
  /-- the pages of the allocator, with the block sizes they were carved for -/
  pages : List (ℕ × ℕ)

namespace KallocState

/-- `add_memory` -/
def addMemory (s : KallocState) (blocksize p : ℕ) : KallocState :=
  let memKey := getLowestPow blocksize
  { s with
    mem := Function.update s.mem p (s.table memKey)
    table := Function.update s.table memKey p }

/-- `pop_memory` -/
def popMemory (s : KallocState) (blocksize : ℕ) : ℕ × KallocState :=
  let memKey := getLowestPow blocksize
  let ret := s.table memKey
  (ret, { s with table := Function.update s.table memKey (s.mem ret) })

/-- The page from `kalloc_page`, cleared, with its header. -/
def newPage (s : KallocState) (page blocksize : ℕ) : KallocState :=
  { s with
    mem := Function.update (fun a => if page ≤ a ∧ a < page + pageSize then 0 else s.mem a)
      page blocksize
    pages := (page, blocksize) :: s.pages }

/-- The loop that carves a page, with the number of rounds left. -/
def carve (page blocksize : ℕ) : ℕ → KallocState → ℕ → KallocState
  | 0, s, _ => s
  | n + 1, s, p =>
    if p + blocksize ≤ page + pageSize then
      carve page blocksize n (s.addMemory blocksize p) (p + blocksize)
    else s

/-- `kalloc`; `page` is what `kalloc_page` returns, if it is called. -/
def kalloc (s : KallocState) (size page : ℕ) : ℕ × KallocState :=
  let size := if size < 8 then 8 else size
  let memKey := getLowestPow size
  let blocksize := pow 2 memKey
  let s :=
    if s.table memKey = 0 then
      carve page blocksize pageSize (s.newPage page blocksize) (page + 64)
    else s
  s.popMemory blocksize

/-- `kfree` -/
def kfree (s : KallocState) (p : ℕ) : KallocState :=
  let blocksize := s.mem (getPageHeader p)
  s.addMemory blocksize p

/-- The address is in a block that is handed out. -/
def Owned (s : KallocState) (a : ℕ) : Prop := ∃ b ∈ s.live, b.1 ≤ a ∧ a < b.1 + b.2

/-- The address is in a page of the allocator. -/
def Inside (s : KallocState) (a : ℕ) : Prop :=
  ∃ q ∈ s.pages, q.1 ≤ a ∧ a < q.1 + pageSize

instance (s : KallocState) (a : ℕ) : Decidable (s.Owned a) :=
  inferInstanceAs (Decidable (∃ b ∈ s.live, _))

instance (s : KallocState) (a : ℕ) : Decidable (s.Inside a) :=
  inferInstanceAs (Decidable (∃ q ∈ s.pages, _))

end KallocState

inductive KallocStep
  /-- `page` is the page that `kalloc_page` would yield -/
  | kalloc (size page : ℕ)
  | kfree (p : ℕ)
  /-- somebody stores a word -/
  | store (a v : ℕ)

namespace KallocState

def step (s : KallocState) : KallocStep → Option KallocState
  | .kalloc size page =>
    -- a page that is not in use is no page of the allocator
    if 1 ≤ size ∧ size ≤ pageSize / 2 ∧ page ≠ 0 ∧ page % pageSize = 0 ∧
        page ∉ s.pages.map Prod.fst then
      let (p, s) := s.kalloc size page
      some { s with live := (p, size) :: s.live }
    else none
  | .kfree p =>
    if p ∈ s.live.map Prod.fst then
      some { s.kfree p with live := s.live.filter fun b => b.1 ≠ p }
    else none
  | .store a v =>
    -- into a block of one's own, or into memory that is not the allocator's
    if a % 8 = 0 ∧ (s.Owned a ∨ ¬s.Inside a) then
      some { s with mem := Function.update s.mem a v }
    else none

end KallocState

/-- `define_early_init(pages)`: the lists are empty. -/
def kallocSystem : System KallocState KallocStep where
  init s := (∀ i, s.table i = 0) ∧ s.live = [] ∧ s.pages = []
  step := KallocState.step

/-! ### The size classes -/

theorem powLoop_eq : ∀ (n ans a b : ℕ), ans < 2 ^ 64 → b < 2 ^ n →
    powLoop n ans a b = ans * a ^ b % 2 ^ 64
  | 0, ans, a, b => by
    intro hans hb
    have hzero : b = 0 := by omega
    rw [hzero, pow_zero, mul_one, Nat.mod_eq_of_lt hans]
    rfl
  | n + 1, ans, a, b => by
    intro hans hb
    unfold powLoop
    split
    · have hhalf : b / 2 < 2 ^ n := by
        rw [pow_succ] at hb
        omega
      have hsplit : a ^ b = a ^ (b % 2) * (a * a) ^ (b / 2) := by
        rw [← pow_two, ← pow_mul, ← pow_add, Nat.mod_add_div]
      split
      · rename_i hodd
        rw [powLoop_eq n _ _ _ (Nat.mod_lt _ (by decide)) hhalf, hsplit, hodd, pow_one, ← mul_assoc]
        exact (Nat.mod_modEq _ _).mul ((Nat.mod_modEq _ _).pow _)
      · rename_i heven
        have hzero : b % 2 = 0 := by omega
        rw [powLoop_eq n _ _ _ hans hhalf, hsplit, hzero, pow_zero, one_mul]
        exact (Nat.ModEq.refl ans).mul ((Nat.mod_modEq _ _).pow _)
    · have hzero : b = 0 := by omega
      rw [hzero, pow_zero, mul_one, Nat.mod_eq_of_lt hans]

/-- `pow` is the power as long as it fits. -/
theorem pow_two_eq {k : ℕ} (hk : k ≤ 12) : pow 2 k = 2 ^ k := by
  have hlt : 2 ^ k < 2 ^ 64 := Nat.pow_lt_pow_right (by decide) (by omega)
  unfold pow
  rw [powLoop_eq 64 1 2 k (by decide) (lt_of_le_of_lt hk (by decide)), one_mul,
    Nat.mod_eq_of_lt hlt]

/-- The loop counts the bits of its argument. -/
theorem lowestPowLoop_spec : ∀ (n i m : ℕ), m < 2 ^ n →
    ∃ d, lowestPowLoop (n + 1) i m = i + d ∧ d ≤ n ∧ m < 2 ^ d ∧ (d = 0 ∨ 2 ^ (d - 1) ≤ m)
  | 0, i, m => by
    intro hm
    have hzero : m = 0 := by omega
    exact ⟨0, by rw [hzero]; rfl, Nat.le_refl _, hm, .inl rfl⟩
  | n + 1, i, m => by
    intro hm
    by_cases hzero : m = 0
    · exact ⟨0, by rw [hzero]; rfl, Nat.zero_le _, by rw [hzero]; decide, .inl rfl⟩
    · have hhalf : m / 2 < 2 ^ n := by
        rw [pow_succ] at hm
        omega
      obtain ⟨d, hd, hle, hlt, hge⟩ := lowestPowLoop_spec n (i + 1) (m / 2) hhalf
      refine ⟨d + 1, ?_, Nat.succ_le_succ hle, ?_, .inr ?_⟩
      · rw [lowestPowLoop, if_neg hzero, hd]
        omega
      · rw [pow_succ]
        omega
      · rw [Nat.add_sub_cancel]
        rcases hge with rfl | hge
        · rw [pow_zero]
          omega
        · cases d with
          | zero =>
            rw [pow_zero]
            omega
          | succ d =>
            rw [Nat.add_sub_cancel] at hge
            rw [pow_succ]
            omega

/-- The least power that is enough. -/
theorem getLowestPow_spec {size : ℕ} (hpos : 1 ≤ size) (hle : size ≤ 2 ^ 12) :
    getLowestPow size ≤ 12 ∧ size ≤ 2 ^ getLowestPow size ∧
      (getLowestPow size = 0 ∨ 2 ^ (getLowestPow size - 1) < size) := by
  obtain ⟨d, hd, hle', hlt, hge⟩ := lowestPowLoop_spec 12 0 (size - 1) (by omega)
  have heq : getLowestPow size = d := by
    unfold getLowestPow
    rw [if_neg (by omega), hd, Nat.zero_add]
  rw [heq]
  exact ⟨hle', by omega, hge.imp_right fun h => by omega⟩

theorem getLowestPow_pow {k : ℕ} (hk : k ≤ 12) : getLowestPow (2 ^ k) = k := by
  have hpos : 1 ≤ 2 ^ k := Nat.one_le_two_pow
  obtain ⟨-, hle, hge⟩ := getLowestPow_spec hpos (Nat.pow_le_pow_right (by decide) hk)
  have hk' : k ≤ getLowestPow (2 ^ k) := (Nat.pow_le_pow_iff_right (by decide)).mp hle
  rcases hge with hzero | hlt
  · omega
  · have hlt' := (Nat.pow_lt_pow_iff_right (by decide)).mp hlt
    omega

/-- The class of a request. -/
def sizeClass (size : ℕ) : ℕ := getLowestPow (if size < 8 then 8 else size)

theorem sizeClass_spec {size : ℕ} (hle : size ≤ pageSize / 2) :
    3 ≤ sizeClass size ∧ sizeClass size ≤ 11 ∧ size ≤ 2 ^ sizeClass size := by
  have hpos : 8 ≤ if size < 8 then 8 else size := by split <;> omega
  have hle' : (if size < 8 then 8 else size) ≤ 2 ^ 11 := by split <;> omega
  have hsize : size ≤ if size < 8 then 8 else size := by split <;> omega
  obtain ⟨-, hfit, hleast⟩ := getLowestPow_spec (by omega) (hle'.trans (by decide))
  refine ⟨?_, ?_, hsize.trans hfit⟩
  · exact (Nat.pow_le_pow_iff_right (a := 2) (by decide)).mp (hpos.trans hfit)
  · rcases hleast with hzero | hlt
    · unfold sizeClass
      omega
    · have hlt' := (Nat.pow_lt_pow_iff_right (a := 2) (by decide)).mp (hlt.trans_le hle')
      unfold sizeClass
      omega

namespace KallocState

/-! ### Blocks -/

/-- The block at `b` is a piece of a page that is carved for class `k`. -/
def Block (pages : List (ℕ × ℕ)) (b k : ℕ) : Prop :=
  ∃ page j, (page, 2 ^ k) ∈ pages ∧ b = page + 64 + j * 2 ^ k ∧ b + 2 ^ k ≤ page + pageSize

/-- The pages are aligned, each is carved once, and for a class that there is. -/
structure Pages (pages : List (ℕ × ℕ)) : Prop where
  nodup : (pages.map Prod.fst).Nodup
  carved : ∀ q ∈ pages, q.1 % pageSize = 0 ∧ q.1 ≠ 0 ∧ ∃ k, 3 ≤ k ∧ k ≤ 11 ∧ q.2 = 2 ^ k

variable {pages : List (ℕ × ℕ)} {b b' k k' page bs : ℕ}

theorem Pages.size_unique (h : Pages pages) {x y : ℕ} (hx : (page, x) ∈ pages)
    (hy : (page, y) ∈ pages) : x = y :=
  (Prod.mk.inj (List.inj_on_of_nodup_map h.nodup hx hy rfl)).2

theorem Pages.class_unique (h : Pages pages) (hx : (page, 2 ^ k) ∈ pages)
    (hy : (page, 2 ^ k') ∈ pages) : k = k' :=
  Nat.pow_right_injective (Nat.le_refl 2) (h.size_unique hx hy)

namespace Block

theorem ne_zero (hb : Block pages b k) : b ≠ 0 := by
  obtain ⟨page, j, -, rfl, -⟩ := hb
  omega

/-- The block and the header of its page. -/
theorem at_header (hp : Pages pages) (hb : Block pages b k) :
    ∃ j, (getPageHeader b, 2 ^ k) ∈ pages ∧ b = getPageHeader b + 64 + j * 2 ^ k ∧
      b + 2 ^ k ≤ getPageHeader b + pageSize := by
  obtain ⟨page, j, hmem, hb, hend⟩ := hb
  have hheader : getPageHeader b = page := by
    show b - b % 4096 = page
    have hle : page + 64 ≤ b := by rw [hb]; exact Nat.le_add_right _ _
    have haligned : page % 4096 = 0 := (hp.carved _ hmem).1
    have hend' : b + 2 ^ k ≤ page + 4096 := hend
    have hpos : 0 < 2 ^ k := Nat.two_pow_pos k
    omega
  rw [hheader]
  exact ⟨j, hmem, hb, hend⟩

theorem header (hp : Pages pages) (hb : Block pages b k) :
    (getPageHeader b, 2 ^ k) ∈ pages ∧ getPageHeader b + 64 ≤ b ∧
      b + 2 ^ k ≤ getPageHeader b + pageSize := by
  obtain ⟨j, hmem, hj, hend⟩ := hb.at_header hp
  exact ⟨hmem, by omega, hend⟩

theorem mod_eight (hp : Pages pages) (hb : Block pages b k) : b % 8 = 0 := by
  obtain ⟨page, j, hmem, rfl, -⟩ := hb
  obtain ⟨haligned, -, i, hi, -, hpow⟩ := hp.carved _ hmem
  have hki : k = i := Nat.pow_right_injective (Nat.le_refl 2) hpow
  have hdvd : 8 ∣ j * 2 ^ k := by
    refine Dvd.dvd.mul_left ?_ j
    exact (pow_dvd_pow 2 (hki ▸ hi) : 2 ^ 3 ∣ 2 ^ k)
  have haligned' : page % 4096 = 0 := haligned
  omega

/-- A block starts in no header. -/
theorem not_page (hp : Pages pages) (hb : Block pages b k) {q : ℕ × ℕ} (hq : q ∈ pages) :
    b ≠ q.1 := by
  obtain ⟨hmem, hle, hend⟩ := hb.header hp
  have haligned : getPageHeader b % 4096 = 0 := (hp.carved _ hmem).1
  have haligned' : q.1 % 4096 = 0 := (hp.carved q hq).1
  have hend' : b + 2 ^ k ≤ getPageHeader b + 4096 := hend
  have hpos : 0 < 2 ^ k := Nat.two_pow_pos k
  omega

/-- A block has one class. -/
theorem class_unique (hp : Pages pages) (hb : Block pages b k) (hb' : Block pages b k') :
    k = k' :=
  hp.class_unique (hb.header hp).1 (hb'.header hp).1

/-- Two blocks do not overlap. -/
theorem apart (hp : Pages pages) (hb : Block pages b k) (hb' : Block pages b' k') (hne : b ≠ b') :
    b + 2 ^ k ≤ b' ∨ b' + 2 ^ k' ≤ b := by
  by_cases hpage : getPageHeader b = getPageHeader b'
  · -- two pieces of one page
    have hkk : k = k' := by
      have hmem := (hb.header hp).1
      rw [hpage] at hmem
      exact hp.class_unique hmem (hb'.header hp).1
    subst hkk
    obtain ⟨j, -, hj, -⟩ := hb.at_header hp
    obtain ⟨j', -, hj', -⟩ := hb'.at_header hp
    rw [hpage] at hj
    rcases Nat.lt_trichotomy j j' with hlt | heq | hlt
    · have hmul := Nat.mul_le_mul_right (2 ^ k) (Nat.succ_le_of_lt hlt)
      rw [Nat.succ_mul] at hmul
      omega
    · rw [heq] at hj
      exact (hne (hj.trans hj'.symm)).elim
    · have hmul := Nat.mul_le_mul_right (2 ^ k) (Nat.succ_le_of_lt hlt)
      rw [Nat.succ_mul] at hmul
      omega
  · obtain ⟨hmem, hle, hend⟩ := hb.header hp
    obtain ⟨hmem', hle', hend'⟩ := hb'.header hp
    have haligned : getPageHeader b % 4096 = 0 := (hp.carved _ hmem).1
    have haligned' : getPageHeader b' % 4096 = 0 := (hp.carved _ hmem').1
    have hend : b + 2 ^ k ≤ getPageHeader b + 4096 := hend
    have hend' : b' + 2 ^ k' ≤ getPageHeader b' + 4096 := hend'
    omega

end Block

/-! ### The invariant -/

/-- The free lists, and where every block is. -/
structure Inv (s : KallocState) (free : ℕ → List ℕ) : Prop where
  chain : ∀ k, Chain s.mem (s.table k) (free k)
  pages : Pages s.pages
  header : ∀ q ∈ s.pages, s.mem q.1 = q.2
  listed : ∀ k, ∀ b ∈ free k, Block s.pages b k
  live : ∀ x ∈ s.live, Block s.pages x.1 (sizeClass x.2) ∧ x.2 ≤ pageSize / 2
  nodup : ∀ k, (s.live.map Prod.fst ++ free k).Nodup

variable {s t : KallocState} {free : ℕ → List ℕ} {p size a v : ℕ}

/-- A block on the list of one class is on no other. -/
theorem Inv.not_mem_free (h : Inv s free) (hb : Block s.pages b k) (hne : k' ≠ k) : b ∉ free k' :=
  fun hmem => hne ((h.listed k' b hmem).class_unique h.pages hb)

/-- A block that is nowhere goes to the list of its class. -/
theorem Inv.addMemory (h : Inv s free) (hb : Block s.pages b k) (hk : k ≤ 12)
    (hlive : b ∉ s.live.map Prod.fst) (hfree : b ∉ free k) :
    Inv (s.addMemory (2 ^ k) b) (Function.update free k (b :: free k)) := by
  have hadd : s.addMemory (2 ^ k) b = { s with
      mem := Function.update s.mem b (s.table k), table := Function.update s.table k b } := by
    unfold KallocState.addMemory
    rw [getLowestPow_pow hk]
  rw [hadd]
  constructor
  · intro j
    by_cases hj : j = k
    · subst hj
      simp only [Function.update_self]
      exact (h.chain j).push hb.ne_zero hfree
    · simp only [Function.update_of_ne hj]
      exact (h.chain j).update (h.not_mem_free hb hj)
  · exact h.pages
  · intro q hq
    show Function.update s.mem b _ q.1 = q.2
    rw [Function.update_of_ne (hb.not_page h.pages hq).symm]
    exact h.header q hq
  · intro j c hc
    by_cases hj : j = k
    · subst hj
      rw [Function.update_self] at hc
      rcases List.mem_cons.mp hc with rfl | hc
      · exact hb
      · exact h.listed j c hc
    · rw [Function.update_of_ne hj] at hc
      exact h.listed j c hc
  · exact h.live
  · intro j
    by_cases hj : j = k
    · subst hj
      rw [Function.update_self]
      refine List.nodup_middle.mpr (List.nodup_cons.mpr ⟨?_, h.nodup j⟩)
      rw [List.mem_append]
      exact fun hor => hor.elim hlive hfree
    · rw [Function.update_of_ne hj]
      exact h.nodup j

/-- The first block of a list is handed out. -/
theorem Inv.popMemory (h : Inv s free) (hk : sizeClass size ≤ 12) (hsize : size ≤ pageSize / 2)
    {l : List ℕ} (hl : free (sizeClass size) = b :: l) :
    (s.popMemory (2 ^ sizeClass size)).1 = b ∧
      Inv { (s.popMemory (2 ^ sizeClass size)).2 with live := (b, size) :: s.live }
        (Function.update free (sizeClass size) l) := by
  have hpop : s.popMemory (2 ^ sizeClass size) = (s.table (sizeClass size), { s with
      table := Function.update s.table (sizeClass size) (s.mem (s.table (sizeClass size))) }) := by
    unfold KallocState.popMemory
    rw [getLowestPow_pow hk]
  have hchain := h.chain (sizeClass size)
  rw [hl] at hchain
  obtain ⟨hb, -, hrest⟩ := hchain
  rw [hpop]
  refine ⟨hb, ?_⟩
  have hmem : b ∈ free (sizeClass size) := hl ▸ List.mem_cons_self
  have hblock := h.listed _ b hmem
  constructor
  · intro j
    by_cases hj : j = sizeClass size
    · subst hj
      simp only [Function.update_self, hb]
      exact hrest
    · simp only [Function.update_of_ne hj]
      exact h.chain j
  · exact h.pages
  · exact h.header
  · intro j c hc
    by_cases hj : j = sizeClass size
    · subst hj
      rw [Function.update_self] at hc
      exact h.listed _ c (hl ▸ List.mem_cons_of_mem b hc)
    · rw [Function.update_of_ne hj] at hc
      exact h.listed j c hc
  · intro x hx
    rcases List.mem_cons.mp hx with rfl | hx
    · exact ⟨hblock, hsize⟩
    · exact h.live x hx
  · intro j
    by_cases hj : j = sizeClass size
    · subst hj
      have hnodup := h.nodup (sizeClass size)
      rw [hl] at hnodup
      rw [Function.update_self]
      exact List.nodup_middle.mp hnodup
    · rw [Function.update_of_ne hj]
      refine List.nodup_cons.mpr ⟨fun hmem' => ?_, h.nodup j⟩
      rcases List.mem_append.mp hmem' with hin | hin
      · have hnodup := List.nodup_append.mp (h.nodup (sizeClass size))
        exact hnodup.2.2 b hin b hmem rfl
      · exact h.not_mem_free hblock hj hin

/-- A store into a block that is handed out, or outside the allocator's pages. -/
theorem Inv.store (h : Inv s free) (ha : s.Owned a ∨ ¬s.Inside a) :
    Inv { s with mem := Function.update s.mem a v } free := by
  have hfree : ∀ k, a ∉ free k := by
    intro k hmem
    have hblock := h.listed k a hmem
    rcases ha with ⟨x, hx, hle, hlt⟩ | hout
    · obtain ⟨hxb, hxs⟩ := h.live x hx
      have hfit := (sizeClass_spec hxs).2.2
      have hne : x.1 ≠ a := by
        rintro rfl
        exact (List.nodup_append.mp (h.nodup k)).2.2 _ (List.mem_map_of_mem hx) _ hmem rfl
      rcases hxb.apart h.pages hblock hne with hap | hap
      · omega
      · have hpos : 0 < 2 ^ k := Nat.two_pow_pos k
        omega
    · obtain ⟨hpage, hle, hend⟩ := hblock.header h.pages
      have hpos : 0 < 2 ^ k := Nat.two_pow_pos k
      exact hout ⟨_, hpage, by omega, by omega⟩
  have hheader : ∀ q ∈ s.pages, a ≠ q.1 := by
    rintro q hq rfl
    rcases ha with ⟨x, hx, hle, hlt⟩ | hout
    · obtain ⟨hxb, hxs⟩ := h.live x hx
      have hfit := (sizeClass_spec hxs).2.2
      obtain ⟨hpage, hlow, hend⟩ := hxb.header h.pages
      have haligned : getPageHeader x.1 % 4096 = 0 := (h.pages.carved _ hpage).1
      have haligned' : q.1 % 4096 = 0 := (h.pages.carved q hq).1
      have hend' : x.1 + 2 ^ sizeClass x.2 ≤ getPageHeader x.1 + 4096 := hend
      omega
    · exact hout ⟨q, hq, Nat.le_refl _, Nat.lt_add_of_pos_right (by decide)⟩
  refine ⟨fun k => (h.chain k).update (hfree k), h.pages, fun q hq => ?_, h.listed, h.live, h.nodup⟩
  show Function.update s.mem a v q.1 = q.2
  rw [Function.update_of_ne (hheader q hq).symm]
  exact h.header q hq

/-! ### A new page -/

theorem Block.mono {pages' : List (ℕ × ℕ)} (hb : Block pages b k) (hsub : pages ⊆ pages') :
    Block pages' b k := by
  obtain ⟨page, j, hmem, hrest⟩ := hb
  exact ⟨page, j, hsub hmem, hrest⟩

/-- A page that is not the allocator's has no block. -/
theorem Block.outside (hp : Pages pages) (hb : Block pages b k)
    (hpage : page % pageSize = 0) (hnew : page ∉ pages.map Prod.fst) :
    ¬(page ≤ b ∧ b < page + pageSize) := by
  rintro ⟨hle, hlt⟩
  obtain ⟨hmem, hlow, hend⟩ := hb.header hp
  have haligned : getPageHeader b % 4096 = 0 := (hp.carved _ hmem).1
  have haligned' : page % 4096 = 0 := hpage
  have hpos : 0 < 2 ^ k := Nat.two_pow_pos k
  have hend' : b + 2 ^ k ≤ getPageHeader b + 4096 := hend
  have hlt' : b < page + 4096 := hlt
  have heq : getPageHeader b = page := by omega
  exact hnew (heq ▸ List.mem_map_of_mem hmem)

theorem Inv.newPage (h : Inv s free) (hk : 3 ≤ k ∧ k ≤ 11) (hne : page ≠ 0)
    (hpage : page % pageSize = 0) (hnew : page ∉ s.pages.map Prod.fst) :
    Inv (s.newPage page (2 ^ k)) free := by
  have hpages : Pages (s.newPage page (2 ^ k)).pages := by
    refine ⟨List.nodup_cons.mpr ⟨hnew, h.pages.nodup⟩, fun q hq => ?_⟩
    rcases List.mem_cons.mp hq with rfl | hq
    · exact ⟨hpage, hne, k, hk.1, hk.2, rfl⟩
    · exact h.pages.carved q hq
  have hsub : s.pages ⊆ (s.newPage page (2 ^ k)).pages := List.subset_cons_self _ _
  have hmem : (s.newPage page (2 ^ k)).mem = Function.update
      (fun a => if page ≤ a ∧ a < page + pageSize then 0 else s.mem a) page (2 ^ k) := rfl
  -- the words of the other pages stay
  have hout : ∀ b, ¬(page ≤ b ∧ b < page + pageSize) →
      (s.newPage page (2 ^ k)).mem b = s.mem b := by
    intro b hb
    have hbp : b ≠ page := by
      rintro rfl
      exact hb ⟨Nat.le_refl _, Nat.lt_add_of_pos_right (by decide)⟩
    rw [hmem, Function.update_of_ne hbp]
    exact if_neg hb
  constructor
  · intro j
    exact (h.chain j).congr fun b hb => hout b ((h.listed j b hb).outside h.pages hpage hnew)
  · exact hpages
  · intro q hq
    rcases List.mem_cons.mp hq with rfl | hq
    · rw [hmem]
      exact Function.update_self _ _ _
    · rw [hout]
      · exact h.header q hq
      · rintro ⟨hle, hlt⟩
        have haligned : q.1 % 4096 = 0 := (h.pages.carved q hq).1
        have haligned' : page % 4096 = 0 := hpage
        have hlt' : q.1 < page + 4096 := hlt
        have heq : q.1 = page := by omega
        exact hnew (heq ▸ List.mem_map_of_mem hq)
  · exact fun j b hb => (h.listed j b hb).mono hsub
  · exact fun x hx => ⟨(h.live x hx).1.mono hsub, (h.live x hx).2⟩
  · exact h.nodup

/-- The loop puts the rest of the page on the list: what is below `p` has been put there,
and nothing of the page from `p` on is anywhere. -/
theorem Inv.carved (hk : k ≤ 12) : ∀ (n : ℕ) {s : KallocState} {free : ℕ → List ℕ} {p i : ℕ},
    Inv s free → (page, 2 ^ k) ∈ s.pages → p = page + 64 + i * 2 ^ k →
    (∀ b, p ≤ b → b < page + pageSize → b ∉ s.live.map Prod.fst ∧ b ∉ free k) →
    ∃ l, Inv (carve page (2 ^ k) n s p) (Function.update free k (l ++ free k)) ∧
      (0 < n → p + 2 ^ k ≤ page + pageSize → l ≠ [])
  | 0, s, free, p, i => by
    intro h _ _ _
    refine ⟨[], ?_, fun hlt => absurd hlt (Nat.lt_irrefl 0)⟩
    rw [List.nil_append, Function.update_eq_self]
    exact h
  | n + 1, s, free, p, i => by
    intro h hmem hp hnone
    unfold carve
    split
    · rename_i hfit
      have hpos : 0 < 2 ^ k := Nat.two_pow_pos k
      have hblock : Block s.pages p k := ⟨page, i, hmem, hp, hfit⟩
      obtain ⟨hlive, hfree⟩ := hnone p (Nat.le_refl _) (by omega)
      have hnext : p + 2 ^ k = page + 64 + (i + 1) * 2 ^ k := by
        rw [hp, Nat.succ_mul, Nat.add_assoc]
      obtain ⟨l, hinv, -⟩ := Inv.carved hk n (h.addMemory hblock hk hlive hfree) hmem hnext
        (by
          intro b hle hlt
          obtain ⟨hl, hf⟩ := hnone b (by omega) hlt
          rw [Function.update_self]
          refine ⟨hl, fun hin => (List.mem_cons.mp hin).elim ?_ hf⟩
          omega)
      refine ⟨l ++ [p], ?_, fun _ _ => List.append_ne_nil_of_right_ne_nil l nofun⟩
      rw [Function.update_self, Function.update_idem] at hinv
      rwa [List.append_assoc]
    · rename_i hfull
      refine ⟨[], ?_, fun _ hfit => absurd hfit hfull⟩
      rw [List.nil_append, Function.update_eq_self]
      exact h

/-- More rounds would carve nothing more. -/
theorem carve_rounds {i : ℕ} (hbs : 8 ≤ bs) : ∀ (n : ℕ) (s : KallocState) (p : ℕ),
    page + pageSize < p + (n + 1) * bs → carve page bs (n + i) s p = carve page bs n s p
  | 0, s, p => by
    intro hlt
    rw [Nat.zero_add, Nat.one_mul] at hlt
    cases i with
    | zero => rfl
    | succ i => exact if_neg (Nat.not_le.mpr hlt)
  | n + 1, s, p => by
    intro hlt
    rw [Nat.succ_mul, Nat.add_comm ((n + 1) * bs), ← Nat.add_assoc] at hlt
    rw [Nat.succ_add]
    unfold carve
    split
    · exact carve_rounds hbs n _ _ hlt
    · rfl

/-! ### Steps -/

theorem kalloc_eq (hsize : size ≤ pageSize / 2) : s.kalloc size page =
    (if s.table (sizeClass size) = 0 then
      KallocState.carve page (2 ^ sizeClass size) pageSize
        (s.newPage page (2 ^ sizeClass size)) (page + 64)
    else s).popMemory (2 ^ sizeClass size) := by
  have hclass : sizeClass size ≤ 11 := (sizeClass_spec hsize).2.1
  rw [← pow_two_eq (show sizeClass size ≤ 12 by omega)]
  rfl

/-- After the refill there is a block on the list. -/
theorem Inv.refilled (h : Inv s free) (hsize : size ≤ pageSize / 2)
    (hpage : s.table (sizeClass size) = 0 →
      page ≠ 0 ∧ page % pageSize = 0 ∧ page ∉ s.pages.map Prod.fst) :
    ∃ free', Inv (if s.table (sizeClass size) = 0 then
        KallocState.carve page (2 ^ sizeClass size) pageSize
          (s.newPage page (2 ^ sizeClass size)) (page + 64)
      else s) free' ∧ free' (sizeClass size) ≠ [] := by
  obtain ⟨hlow, hhigh, -⟩ := sizeClass_spec hsize
  by_cases hempty : s.table (sizeClass size) = 0
  · rw [if_pos hempty]
    obtain ⟨hne, haligned, hnew⟩ := hpage hempty
    have hchain := h.chain (sizeClass size)
    rw [hempty] at hchain
    have hroom : 2 ^ sizeClass size ≤ 2 ^ 11 := Nat.pow_le_pow_right (by decide) hhigh
    have hnil := hchain.eq_nil
    obtain ⟨l, hinv, hl⟩ := Inv.carved (i := 0) (show sizeClass size ≤ 12 by omega) pageSize
      (h.newPage ⟨hlow, hhigh⟩ hne haligned hnew) List.mem_cons_self
      (by rw [Nat.zero_mul])
      (by
        intro b hle hlt
        constructor
        · intro hin
          obtain ⟨x, hx, rfl⟩ := List.mem_map.mp hin
          exact (h.live x hx).1.outside h.pages haligned hnew ⟨by omega, hlt⟩
        · rw [hnil]
          exact List.not_mem_nil)
    refine ⟨_, hinv, ?_⟩
    rw [Function.update_self]
    refine List.append_ne_nil_of_left_ne_nil (hl (by decide) ?_) _
    show page + 64 + 2 ^ sizeClass size ≤ page + 4096
    omega
  · rw [if_neg hempty]
    refine ⟨free, h, ?_⟩
    intro hnil
    have hchain := h.chain (sizeClass size)
    rw [hnil] at hchain
    exact hempty hchain

/-- `kalloc` hands out a block of the class of the request. -/
theorem Inv.kalloc (h : Inv s free) (hsize : size ≤ pageSize / 2)
    (hpage : s.table (sizeClass size) = 0 →
      page ≠ 0 ∧ page % pageSize = 0 ∧ page ∉ s.pages.map Prod.fst) :
    ∃ free', Inv { (s.kalloc size page).2 with
      live := ((s.kalloc size page).1, size) :: (s.kalloc size page).2.live } free' := by
  have hclass : sizeClass size ≤ 11 := (sizeClass_spec hsize).2.1
  obtain ⟨free', hinv, hsome⟩ := h.refilled hsize hpage
  rw [kalloc_eq hsize]
  cases hl : free' (sizeClass size) with
  | nil => exact (hsome hl).elim
  | cons b l =>
    obtain ⟨hb, hinv'⟩ := hinv.popMemory (show sizeClass size ≤ 12 by omega) hsize hl
    rw [hb]
    exact ⟨_, hinv'⟩

/-- A block that is given up is nowhere. -/
theorem Inv.release (h : Inv s free) (hp : p ∈ s.live.map Prod.fst) :
    Inv { s with live := s.live.filter fun b => b.1 ≠ p } free ∧
      p ∉ (s.live.filter fun b => b.1 ≠ p).map Prod.fst ∧ ∀ k, p ∉ free k := by
  have hsub : (s.live.filter fun b => b.1 ≠ p).Sublist s.live := List.filter_sublist
  refine ⟨⟨h.chain, h.pages, h.header, h.listed, fun x hx => h.live x (hsub.subset hx),
    fun k => ((hsub.map Prod.fst).append (List.Sublist.refl _)).nodup (h.nodup k)⟩, ?_, fun k hk => ?_⟩
  · intro hin
    obtain ⟨x, hx, hxp⟩ := List.mem_map.mp hin
    simp only [List.mem_filter, decide_eq_true_eq] at hx
    exact hx.2 hxp
  · exact (List.nodup_append.mp (h.nodup k)).2.2 p hp p hk rfl

/-- `kfree` puts the block back on the list of its class. -/
theorem Inv.kfree (h : Inv s free) (hx : (p, size) ∈ s.live) :
    s.kfree p = s.addMemory (2 ^ sizeClass size) p ∧
      Inv { s.kfree p with live := s.live.filter fun b => b.1 ≠ p }
        (Function.update free (sizeClass size) (p :: free (sizeClass size))) := by
  obtain ⟨hblock, hsize⟩ := h.live _ hx
  have hclass : sizeClass size ≤ 11 := (sizeClass_spec hsize).2.1
  have hfree : s.kfree p = s.addMemory (2 ^ sizeClass size) p := by
    unfold KallocState.kfree
    rw [h.header _ (hblock.header h.pages).1]
  obtain ⟨hinv, hlive, hnone⟩ := h.release (List.mem_map_of_mem hx)
  refine ⟨hfree, ?_⟩
  rw [hfree]
  exact hinv.addMemory hblock (by omega) hlive (hnone _)

theorem Inv.step {l : KallocStep} (h : Inv s free) (hs : s.step l = some t) :
    ∃ free', Inv t free' := by
  cases l with
  | kalloc size page =>
    simp only [KallocState.step] at hs
    split at hs
    · rename_i hok
      cases hs
      exact h.kalloc hok.2.1 fun _ => hok.2.2
    · cases hs
  | kfree p =>
    simp only [KallocState.step] at hs
    split at hs
    · rename_i hp
      cases hs
      obtain ⟨⟨b, size⟩, hx, rfl⟩ := List.mem_map.mp hp
      exact ⟨_, (h.kfree hx).2⟩
    · cases hs
  | store a v =>
    simp only [KallocState.step] at hs
    split at hs
    · rename_i hok
      cases hs
      exact ⟨free, h.store hok.2⟩
    · cases hs

theorem inv_of_reachable (h : kallocSystem.Reachable (fun _ _ => True) s) : ∃ free, Inv s free := by
  refine h.induction (I := fun s => ∃ free, Inv s free) ?_ ?_
  · rintro s ⟨htable, hlive, hpages⟩
    refine ⟨fun _ => [], fun k => htable k, ⟨?_, ?_⟩, ?_, nofun, ?_, fun k => ?_⟩
    · rw [hpages]
      exact List.nodup_nil
    · rw [hpages]
      exact nofun
    · rw [hpages]
      exact nofun
    · rw [hlive]
      exact nofun
    · rw [hlive]
      exact List.nodup_nil
  · rintro s l t ⟨free, hinv⟩ - hs
    exact hinv.step hs

/-- The size of a block, from the header of its page. -/
def blocksize (s : KallocState) (b : ℕ) : ℕ := s.mem (getPageHeader b)

/-- What holds of the blocks and of the lists at any time. -/
structure Sound (s : KallocState) (free : ℕ → List ℕ) : Prop where
  /-- the lists in memory -/
  lists : ∀ k, Chain s.mem (s.table k) (free k)
  once : ∀ k, (free k).Nodup
  one_list : ∀ k k', k ≠ k' → ∀ b ∈ free k, b ∉ free k'
  not_both : ∀ k, ∀ x ∈ s.live, x.1 ∉ free k
  /-- a block lies in a page, behind its header, is aligned and has room -/
  inside : ∀ x ∈ s.live, getPageHeader x.1 ∈ s.pages.map Prod.fst ∧ getPageHeader x.1 + 8 ≤ x.1 ∧
    x.1 + s.blocksize x.1 ≤ getPageHeader x.1 + pageSize ∧ x.2 ≤ s.blocksize x.1 ∧ x.1 % 8 = 0
  apart : s.live.Pairwise fun x y =>
    x.1 + s.blocksize x.1 ≤ y.1 ∨ y.1 + s.blocksize y.1 ≤ x.1
  header : ∀ q ∈ s.pages, s.mem q.1 = q.2

theorem Inv.sound (h : Inv s free) : Sound s free := by
  have hsize : ∀ x ∈ s.live, s.blocksize x.1 = 2 ^ sizeClass x.2 := fun x hx =>
    h.header _ ((h.live x hx).1.header h.pages).1
  have hlive : (s.live.map Prod.fst).Nodup := (List.nodup_append.mp (h.nodup 0)).1
  refine ⟨h.chain, fun k => (List.nodup_append.mp (h.nodup k)).2.1, fun k k' hne b hb => ?_,
    fun k x hx hk => ?_, fun x hx => ?_, ?_, h.header⟩
  · exact h.not_mem_free (h.listed k b hb) hne.symm
  · exact (List.nodup_append.mp (h.nodup k)).2.2 _ (List.mem_map_of_mem hx) _ hk rfl
  · obtain ⟨hblock, hle⟩ := h.live x hx
    obtain ⟨hmem, hlow, hend⟩ := hblock.header h.pages
    rw [hsize x hx]
    exact ⟨List.mem_map_of_mem hmem, by omega, hend, (sizeClass_spec hle).2.2,
      hblock.mod_eight h.pages⟩
  · have hpair : s.live.Pairwise fun x y => x.1 ≠ y.1 := List.pairwise_map.mp hlive
    refine hpair.imp_of_mem fun {x y} hx hy hne => ?_
    rw [hsize x hx, hsize y hy]
    exact (h.live x hx).1.apart h.pages (h.live y hy).1 hne

/-- After `kfree` the block is the next one of its class. -/
theorem Inv.returns (h : Inv s free) (hx : (p, size) ∈ s.live)
    (hs : s.step (.kfree p) = some t) :
    t.table (sizeClass size) = p ∧ (∀ j, j ≠ sizeClass size → t.table j = s.table j) ∧
      ∀ size' page u, sizeClass size' = sizeClass size →
        t.step (.kalloc size' page) = some u → u.live = (p, size') :: t.live := by
  obtain ⟨hblock, hsize⟩ := h.live _ hx
  have hclass : sizeClass size ≤ 11 := (sizeClass_spec hsize).2.1
  have hpow : getLowestPow (2 ^ sizeClass size) = sizeClass size := getLowestPow_pow (by omega)
  have htable : t.table = Function.update s.table (sizeClass size) p := by
    simp only [KallocState.step] at hs
    split at hs
    · cases hs
      rw [(h.kfree hx).1]
      show Function.update s.table (getLowestPow (2 ^ sizeClass size)) p = _
      rw [hpow]
    · cases hs
  have hhead : t.table (sizeClass size) = p := by rw [htable, Function.update_self]
  refine ⟨hhead, fun j hj => by rw [htable, Function.update_of_ne hj], fun size' page u heq hu => ?_⟩
  simp only [KallocState.step] at hu
  split at hu
  · cases hu
    have hne : ¬t.table (sizeClass size') = 0 := by
      rw [heq, hhead]
      exact hblock.ne_zero
    have hkalloc : t.kalloc size' page = t.popMemory (pow 2 (sizeClass size')) := by
      show (if t.table (sizeClass size') = 0 then _ else t).popMemory _ = _
      rw [if_neg hne]
      rfl
    rw [hkalloc, heq, pow_two_eq (by omega)]
    show (t.table (getLowestPow (2 ^ sizeClass size)), size') :: t.live = _
    rw [hpow, hhead]
  · cases hu

end KallocState

/-- **The allocator.**  In every run the blocks that are handed out are apart, in their
pages, large enough and aligned, the lists are in order, and a block that is given back is
on the list of its class. -/
theorem kalloc_sound (s : KallocState) (h : kallocSystem.Reachable (fun _ _ => True) s) :
    (∃ free, s.Sound free) ∧
      ∀ p size t, (p, size) ∈ s.live → kallocSystem.step s (.kfree p) = some t →
        s.blocksize p = 2 ^ sizeClass size ∧ t.table (sizeClass size) = p ∧
        (∀ j, j ≠ sizeClass size → t.table j = s.table j) ∧
        ∀ size' page u, sizeClass size' = sizeClass size →
          kallocSystem.step t (.kalloc size' page) = some u → u.live = (p, size') :: t.live := by
  obtain ⟨free, hinv⟩ := KallocState.inv_of_reachable h
  refine ⟨⟨free, hinv.sound⟩, fun p size t hx hs => ⟨?_, hinv.returns hx hs⟩⟩
  exact hinv.header _ ((hinv.live _ hx).1.header hinv.pages).1

/-- Three blocks in two pages; two have been given back, and one of them is in use again. -/
theorem kalloc_sound_three : ∃ s : KallocState,
    s.live = [(5184, 700), (4160, 1024), (8256, 2000)] ∧ s.mem 4096 = 1024 ∧
      ∃ free, s.Sound free := by
  have hrun : (kallocSystem.exec (fun _ _ => True) ⟨fun _ => 0, fun _ => 0, [], []⟩
      [.kalloc 1000 4096, .kalloc 513 8192, .kalloc 2000 8192, .store 5184 7, .kalloc 1024 12288,
        .kfree 6208, .kfree 5184, .kalloc 700 12288]).map (fun s => (s.live, s.mem 4096)) =
      some ([(5184, 700), (4160, 1024), (8256, 2000)], 1024) := by
    decide
  obtain ⟨s, hs, heq⟩ := Option.map_eq_some_iff.mp hrun
  obtain ⟨hlive, hmem⟩ := Prod.mk.inj heq
  exact ⟨s, hlive, hmem, (kalloc_sound s ⟨_, ⟨fun _ => rfl, rfl, rfl⟩, System.leads_of_exec hs⟩).1⟩

end OsLab
