/-
Which requests `kalloc` serves (`kalloc` of `kernel/mem.c`, any size and no free page).

The largest class is for blocks of `PAGE_SIZE` bytes.  A page has no room for one behind its
header, so the loop carves nothing, and `pop_memory` follows the empty list.

* `KallocState.kallocAny` — `kalloc` with its argument as an `isize`, where it may go
  through `NULL`;
* `KallocState.Serves` — what `kalloc` promises;
* `kalloc_serves_iff` — it keeps the promise just for sizes up to `PAGE_SIZE / 2`, and as long
  as it needs no page that there is not.
-/
import OsLab.Kernel.Kalloc
import Mathlib.Data.BitVec

namespace OsLab

namespace KallocState

/-- `kalloc`, with what `kalloc_page` returns if it is called; `none` when a header is
written, or a block is read, through `NULL`. -/
def kallocAny (s : KallocState) (sizeInput : BitVec 64) (page : Option ℕ) :
    Option (ℕ × KallocState) :=
  let size := sizeInput.toNat
  let size := if size < 8 then 8 else size
  let memKey := getLowestPow size
  let blocksize := pow 2 memKey
  let refilled :=
    if s.table memKey = 0 then
      page.map fun page => carve page blocksize pageSize (s.newPage page blocksize) (page + 64)
    else some s
  refilled.bind fun s =>
    if s.table (getLowestPow blocksize) = 0 then none else some (s.popMemory blocksize)

/-- A page that `kalloc_page` may return: it is not in use. -/
def Unused (s : KallocState) (page : ℕ) : Prop :=
  page ≠ 0 ∧ page % pageSize = 0 ∧ page ∉ s.pages.map Prod.fst

instance (s : KallocState) (page : ℕ) : Decidable (s.Unused page) :=
  inferInstanceAs (Decidable (_ ∧ _))

end KallocState

inductive KallocCall
  /-- `page` is what `kalloc_page` would return -/
  | kalloc (sizeInput : BitVec 64) (page : Option ℕ)
  | kfree (p : ℕ)
  /-- somebody stores a word -/
  | store (a v : ℕ)

namespace KallocState

/-- The calls that come back. -/
def call (s : KallocState) : KallocCall → Option KallocState
  | .kalloc sizeInput page =>
    if page.all fun page => s.Unused page then
      (s.kallocAny sizeInput page).map fun (p, s) => { s with live := (p, sizeInput.toNat) :: s.live }
    else none
  | .kfree p => s.step (.kfree p)
  | .store a v => s.step (.store a v)

/-- `NULL` with the lists as they were, or a block that has room, behind the header of a page,
and that shares no byte with a block that is handed out. -/
def Serves (s : KallocState) (sizeInput : BitVec 64) (page : Option ℕ) : Prop :=
  ∃ p t, s.kallocAny sizeInput page = some (p, t) ∧
    ((p = 0 ∧ ∀ k l, Chain s.mem (s.table k) l → Chain t.mem (t.table k) l) ∨
      (getPageHeader p ∈ t.pages.map Prod.fst ∧ getPageHeader p + 8 ≤ p ∧
        p + t.blocksize p ≤ getPageHeader p + pageSize ∧ sizeInput.toInt ≤ t.blocksize p ∧
        ∀ x ∈ s.live, p + t.blocksize p ≤ x.1 ∨ x.1 + t.blocksize x.1 ≤ p))

end KallocState

/-- `kallocSystem` with requests of any size. -/
def kallocAnySystem : System KallocState KallocCall where
  init := kallocSystem.init
  step := KallocState.call

/-! ### The classes of large requests -/

/-- The loop runs out of rounds. -/
theorem lowestPowLoop_of_ge : ∀ (n i m : ℕ), 2 ^ n ≤ m → lowestPowLoop (n + 1) i m = 12
  | 0, i, m => by
    intro hm
    have hpos : m ≠ 0 := by
      rintro rfl
      exact absurd hm (by decide)
    exact if_neg hpos
  | n + 1, i, m => by
    intro hm
    have hpos : 0 < 2 ^ n := Nat.two_pow_pos n
    rw [pow_succ] at hm
    have hhalf : 2 ^ n ≤ m / 2 := by omega
    rw [lowestPowLoop, if_neg (by omega), lowestPowLoop_of_ge n (i + 1) (m / 2) hhalf]

/-- A request of more than half a page is of the last class. -/
theorem sizeClass_of_large {size : ℕ} (h : pageSize / 2 < size) : sizeClass size = 12 := by
  have h' : 2048 < size := h
  rw [sizeClass, if_neg (by omega)]
  by_cases hpage : size ≤ 2 ^ 12
  · -- only the last power is enough
    obtain ⟨hle, hfit, -⟩ := getLowestPow_spec (by omega) hpage
    have hlt : 2 ^ 11 < 2 ^ getLowestPow size := lt_of_lt_of_le h' hfit
    have hexp : 11 < getLowestPow size := (Nat.pow_lt_pow_iff_right (by decide)).mp hlt
    omega
  · rw [getLowestPow, if_neg (by omega)]
    exact lowestPowLoop_of_ge 12 0 (size - 1) (by omega)

namespace KallocState

variable {s t : KallocState} {free : ℕ → List ℕ} {p size : ℕ} {sizeInput : BitVec 64}
  {page : Option ℕ}

/-- No page is carved for the last class, so its list is empty. -/
theorem Inv.table_last (h : Inv s free) : s.table 12 = 0 := by
  have hnil : free 12 = [] := by
    refine List.eq_nil_iff_forall_not_mem.mpr fun b hb => ?_
    obtain ⟨page, j, hmem, -, -⟩ := h.listed 12 b hb
    obtain ⟨-, -, k, -, hk, hpow⟩ := h.pages.carved _ hmem
    have hlt : 2 ^ k ≤ 2 ^ 11 := Nat.pow_le_pow_right (by decide) hk
    have heq : 2 ^ 12 = 2 ^ k := hpow
    omega
  have hchain := h.chain 12
  rwa [hnil] at hchain

theorem kallocAny_eq : s.kallocAny sizeInput page =
    (if s.table (sizeClass sizeInput.toNat) = 0 then
      page.map fun page => carve page (pow 2 (sizeClass sizeInput.toNat)) pageSize
        (s.newPage page (pow 2 (sizeClass sizeInput.toNat))) (page + 64)
    else some s).bind fun s =>
      if s.table (getLowestPow (pow 2 (sizeClass sizeInput.toNat))) = 0 then none
      else some (s.popMemory (pow 2 (sizeClass sizeInput.toNat))) := rfl

/-- The new page has no room for a block of its size, and the empty list is followed. -/
theorem Inv.kallocAny_large (h : Inv s free) (hsize : pageSize / 2 < sizeInput.toNat) :
    s.kallocAny sizeInput page = none := by
  have hpow : pow 2 12 = 4096 := by decide
  have hlow : getLowestPow 4096 = 12 := by decide
  rw [kallocAny_eq, sizeClass_of_large hsize, if_pos h.table_last, hpow, hlow]
  cases page with
  | none => rfl
  | some page =>
    have hcarve : ∀ n r, carve page 4096 n r (page + 64) = r := by
      intro n r
      cases n with
      | zero => rfl
      | succ n =>
        refine if_neg ?_
        show ¬page + 64 + 4096 ≤ page + 4096
        omega
    rw [Option.map_some, Option.bind_some, hcarve]
    exact if_pos h.table_last

/-- A request of at most half a page is served if it needs no page, or gets one. -/
theorem Inv.kallocAny_small (h : Inv s free) (hsize : sizeInput.toNat ≤ pageSize / 2)
    (hpage : ∀ p ∈ page, s.Unused p)
    (hready : s.table (sizeClass sizeInput.toNat) ≠ 0 ∨ page ≠ none) :
    s.kallocAny sizeInput page = some (s.kalloc sizeInput.toNat (page.getD 0)) ∧
      ∃ free', Inv { (s.kalloc sizeInput.toNat (page.getD 0)).2 with
        live := ((s.kalloc sizeInput.toNat (page.getD 0)).1, sizeInput.toNat) ::
          (s.kalloc sizeInput.toNat (page.getD 0)).2.live } free' := by
  have hclass : sizeClass sizeInput.toNat ≤ 11 := (sizeClass_spec hsize).2.1
  have hpow : pow 2 (sizeClass sizeInput.toNat) = 2 ^ sizeClass sizeInput.toNat :=
    pow_two_eq (by omega)
  have hlow : getLowestPow (2 ^ sizeClass sizeInput.toNat) = sizeClass sizeInput.toNat :=
    getLowestPow_pow (by omega)
  have hunused : s.table (sizeClass sizeInput.toNat) = 0 → s.Unused (page.getD 0) := by
    intro hempty
    obtain ⟨p, rfl⟩ := Option.ne_none_iff_exists'.mp (hready.resolve_left (not_not_intro hempty))
    exact hpage p rfl
  refine ⟨?_, h.kalloc hsize hunused⟩
  obtain ⟨free', hinv, hsome⟩ := h.refilled hsize hunused
  -- the list that is popped is not empty
  have hne : ∀ r : KallocState, Inv r free' → r.table (sizeClass sizeInput.toNat) ≠ 0 := by
    intro r hr hempty
    have hchain := hr.chain (sizeClass sizeInput.toNat)
    rw [hempty] at hchain
    exact hsome hchain.eq_nil
  rw [kallocAny_eq, kalloc_eq hsize, hpow, hlow]
  by_cases hempty : s.table (sizeClass sizeInput.toNat) = 0
  · obtain ⟨p, rfl⟩ := Option.ne_none_iff_exists'.mp (hready.resolve_left (not_not_intro hempty))
    rw [if_pos hempty] at hinv ⊢
    rw [if_pos hempty]
    exact if_neg (hne _ hinv)
  · rw [if_neg hempty] at hinv ⊢
    rw [if_neg hempty]
    exact if_neg (hne _ hinv)

/-- Other requests are not. -/
theorem Inv.kallocAny_none (h : Inv s free)
    (hnot : ¬(sizeInput.toNat ≤ pageSize / 2 ∧
      (s.table (sizeClass sizeInput.toNat) ≠ 0 ∨ page ≠ none))) :
    s.kallocAny sizeInput page = none := by
  by_cases hsize : sizeInput.toNat ≤ pageSize / 2
  · have hneither := not_or.mp fun hor => hnot ⟨hsize, hor⟩
    rw [kallocAny_eq, if_pos (not_not.mp hneither.1), not_not.mp hneither.2]
    rfl
  · exact h.kallocAny_large (Nat.lt_of_not_le hsize)

/-- A call that comes back is one that is served. -/
theorem Inv.kallocAny_some (h : Inv s free) (hpage : ∀ p ∈ page, s.Unused p)
    (hk : s.kallocAny sizeInput page = some (p, t)) :
    (sizeInput.toNat ≤ pageSize / 2 ∧ (s.table (sizeClass sizeInput.toNat) ≠ 0 ∨ page ≠ none)) ∧
      (p, t) = s.kalloc sizeInput.toNat (page.getD 0) ∧
      ∃ free', Inv { t with live := (p, sizeInput.toNat) :: t.live } free' := by
  by_cases hready : sizeInput.toNat ≤ pageSize / 2 ∧
      (s.table (sizeClass sizeInput.toNat) ≠ 0 ∨ page ≠ none)
  · obtain ⟨heq, hinv⟩ := h.kallocAny_small hready.1 hpage hready.2
    have hpt : (p, t) = s.kalloc sizeInput.toNat (page.getD 0) :=
      Option.some.inj (hk.symm.trans heq)
    rw [← hpt] at hinv
    exact ⟨hready, hpt, hinv⟩
  · rw [h.kallocAny_none hready] at hk
    cases hk

theorem Inv.call {c : KallocCall} (h : Inv s free) (hs : s.call c = some t) :
    ∃ free', Inv t free' := by
  cases c with
  | kalloc sizeInput page =>
    rw [KallocState.call] at hs
    split at hs
    · rename_i hpage
      obtain ⟨⟨p, u⟩, hk, rfl⟩ := Option.map_eq_some_iff.mp hs
      rw [Option.all_eq_true] at hpage
      exact (h.kallocAny_some (fun p hp => of_decide_eq_true (hpage p hp)) hk).2.2
    · cases hs
  | kfree p => exact h.step (l := .kfree p) hs
  | store a v => exact h.step (l := .store a v) hs

theorem inv_of_reachable_any (h : kallocAnySystem.Reachable (fun _ _ => True) s) :
    ∃ free, Inv s free := by
  refine h.induction (I := fun s => ∃ free, Inv s free) (fun s hinit => ?_) ?_
  · exact inv_of_reachable ⟨s, hinit, .refl s⟩
  · rintro s c t ⟨free, hinv⟩ - hs
    exact hinv.call hs

/-- Carving hands nothing out. -/
theorem carve_live (page bs : ℕ) : ∀ (n : ℕ) (s : KallocState) (p : ℕ),
    (carve page bs n s p).live = s.live
  | 0, s, p => rfl
  | n + 1, s, p => by
    unfold carve
    split
    · exact carve_live page bs n (s.addMemory bs p) (p + bs)
    · rfl

theorem kalloc_live (s : KallocState) (size page : ℕ) : (s.kalloc size page).2.live = s.live := by
  show (if s.table (sizeClass size) = 0 then
    carve page (pow 2 (sizeClass size)) pageSize (s.newPage page (pow 2 (sizeClass size))) (page + 64)
    else s).live = s.live
  split
  · exact carve_live _ _ _ _ _
  · rfl

/-- What a block that has been handed out is for the caller. -/
theorem Inv.served (h : Inv { t with live := (p, size) :: t.live } free) :
    getPageHeader p ∈ t.pages.map Prod.fst ∧ getPageHeader p + 8 ≤ p ∧
      p + t.blocksize p ≤ getPageHeader p + pageSize ∧ size ≤ t.blocksize p ∧
      ∀ x ∈ t.live, p + t.blocksize p ≤ x.1 ∨ x.1 + t.blocksize x.1 ≤ p := by
  obtain ⟨hmem, hlow, hend, hfit, -⟩ := h.sound.inside (p, size) List.mem_cons_self
  exact ⟨hmem, hlow, hend, hfit, (List.pairwise_cons.mp h.sound.apart).1⟩

end KallocState

/-- **Which requests are served.**  In every run, and for every argument: the call keeps its
promise if and only if the size is at most half a page and the list of its class is not empty or
there is a page. -/
theorem kalloc_serves_iff (s : KallocState)
    (h : kallocAnySystem.Reachable (fun _ _ => True) s) (sizeInput : BitVec 64) (page : Option ℕ)
    (hpage : ∀ p ∈ page, s.Unused p) :
    s.Serves sizeInput page ↔ (0 ≤ sizeInput.toInt ∧ sizeInput.toInt ≤ pageSize / 2) ∧
      (s.table (sizeClass sizeInput.toNat) ≠ 0 ∨ page ≠ none) := by
  obtain ⟨free, hinv⟩ := KallocState.inv_of_reachable_any h
  have hsize : sizeInput.toNat ≤ pageSize / 2 ↔
      0 ≤ sizeInput.toInt ∧ sizeInput.toInt ≤ pageSize / 2 := by
    rw [BitVec.toInt_eq_toNat_cond]
    have hlt : sizeInput.toNat < 2 ^ 64 := sizeInput.isLt
    simp only [pageSize]
    split <;> omega
  rw [← hsize]
  constructor
  · rintro ⟨p, t, hk, -⟩
    exact (hinv.kallocAny_some hpage hk).1
  · rintro ⟨hle, hready⟩
    obtain ⟨hk, free', hserved⟩ := hinv.kallocAny_small hle hpage hready
    obtain ⟨hmem, hlow, hend, hfit, hapart⟩ := hserved.served
    rw [KallocState.kalloc_live] at hapart
    refine ⟨_, _, hk, .inr ⟨hmem, hlow, hend, ?_, hapart⟩⟩
    have hint : sizeInput.toInt = sizeInput.toNat := by
      have hle' := (hsize.mp hle).1
      rw [BitVec.toInt_eq_toNat_cond] at hle' ⊢
      have hlt : sizeInput.toNat < 2 ^ 64 := sizeInput.isLt
      split at hle' <;> split <;> omega
    rw [hint]
    exact Int.ofNat_le.mpr hfit

/-- Two blocks are in use; a third one is served from the list, although there is no page. -/
theorem kalloc_serves_list : ∃ s : KallocState, s.live.length = 2 ∧ s.Serves 700 none := by
  have hrun : (kallocAnySystem.exec (fun _ _ => True) ⟨fun _ => 0, fun _ => 0, [], []⟩
      [.kalloc 1000 (some 4096), .kalloc 0 (some 8192), .store 6208 7]).map (fun s =>
        (s.live.length, decide (s.table (sizeClass 700) = 0))) = some (2, false) := by
    decide +kernel
  obtain ⟨s, hs, heq⟩ := Option.map_eq_some_iff.mp hrun
  simp only [Prod.mk.injEq, decide_eq_false_iff_not] at heq
  refine ⟨s, heq.1, (kalloc_serves_iff s ⟨_, ⟨fun _ => rfl, rfl, rfl⟩, System.leads_of_exec hs⟩ 700
    none nofun).mpr ⟨by decide, .inl heq.2⟩⟩

/-- `create_proc` asks for more than `NFILE` pointers: with a page at hand, and all lists empty,
the call follows the empty list of the last class. -/
theorem kalloc_proc_faults : ∃ s : KallocState,
    kallocAnySystem.Reachable (fun _ _ => True) s ∧ s.Unused 4096 ∧
      s.kallocAny 524288 (some 4096) = none ∧ ¬s.Serves 524288 (some 4096) := by
  have hnone : KallocState.kallocAny ⟨fun _ => 0, fun _ => 0, [], []⟩ 524288 (some 4096) = none :=
    Option.isNone_iff_eq_none.mp (by decide)
  refine ⟨⟨fun _ => 0, fun _ => 0, [], []⟩, ⟨_, ⟨fun _ => rfl, rfl, rfl⟩, .refl _⟩, by decide, hnone,
    ?_⟩
  rintro ⟨p, t, hsome, -⟩
  rw [hnone] at hsome
  cases hsome

end OsLab
