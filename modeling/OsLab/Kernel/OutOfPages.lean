/-
When there are no pages left (`kalloc_page` of `kernel/mem.c` and its callers).

`kalloc_page` counts and clears the page that it has taken from the queue before anybody has
looked at it, so that it writes through `NULL` when the queue is empty.  The checks for `NULL` in
`load_msg` and `get_pte` come too late.

* `PageMem.loadMsg` — the pages of a message, with the way back when one is missing;
* `PtState.missingTables` — what `get_pte` has to add for an address;
* `PageMem.loadSegs_eq`, `PtState.walk_isSome_iff` — how many pages a call takes;
* `outOfPages_iff` — the calls come back just when there are so many.
-/
import OsLab.Kernel.PagePool
import OsLab.Kernel.PageTable
import OsLab.Kernel.KallocSizes
import OsLab.Common.Ipc

namespace OsLab

attribute [local instance] nPtePerTable_neZero

namespace PageMem

/-- `free_msg` of a message in these pages, the first one last. -/
def freeMsg (m : PageMem) : List Addr → PageMem
  | [] => m
  | msg :: segs => (segs.foldl kfreePage m).kfreePage msg

/-- The loop of `load_msg`; `fuel` is enough when it is `len`. -/
def loadSegs : ℕ → PageMem → List Addr → ℕ → Option (Option (List Addr) × PageMem)
  | 0, m, pages, _ => some (some pages, m)
  | fuel + 1, m, pages, len =>
    if 0 < len then
      match m.kallocPage with
      | none => none
      | some (mseg, m) =>
        if mseg = 0 then some (none, m.freeMsg pages)
        else loadSegs fuel m (pages ++ [mseg]) (len - min msgMsgsegsz len)
    else some (some pages, m)

/-- `load_msg`, but for the bytes: the pages of the message, or `NULL`. -/
def loadMsg (m : PageMem) (len : ℕ) : Option (Option (List Addr) × PageMem) :=
  match m.kallocPage with
  | none => none
  | some (msg, m) =>
    if msg = 0 then some (none, m)
    else
      let left := len - min msgMsgsz len
      loadSegs left m [msg] left

end PageMem

/-- The segments of so many bytes. -/
def msgSegs (len : ℕ) : ℕ := (len + msgMsgsegsz - 1) / msgMsgsegsz

/-- The pages of a message. -/
def msgPages (len : ℕ) : ℕ := msgSegs (len - min msgMsgsz len) + 1

namespace PtState

/-- How many tables there are not on a path below the table at the end of `r`. -/
def missingBelow (s : PtState) (d : ℕ) : List PtIndex → List PtIndex → ℕ
  | _, [] => 0
  | r, i :: is => (if s.node d (i :: r) = 0 then 1 else 0) + missingBelow s d (i :: r) is

/-- And on the path of an address. -/
def missingTables (s : PtState) (d : ℕ) (va : BitVec 64) : ℕ :=
  (if s.pt d = 0 then 1 else 0) +
    missingBelow s d [] [pdIndex va 39, pdIndex va 30, pdIndex va 21]

end PtState

/-! ### What is promised -/

/-- `kalloc_page` returns a free page, or `NULL` and has changed nothing. -/
def PoolState.Gives (s : PoolState) (free : List Addr) : Prop :=
  ∃ p t, s.kallocPage = some (p, t) ∧ (p ∈ free ∨ p = 0 ∧ t = s)

/-- `load_msg` comes back, and the pages that are no longer free are those of the message. -/
def PageMem.Loads (m : PageMem) (len : ℕ) : Prop :=
  ∃ o m', m.loadMsg len = some (o, m') ∧
    ∀ p ∈ m.free, p ∉ m'.free → ∃ pages, o = some pages ∧ p ∈ pages

/-- `get_pte` comes back, and the pages that are no longer free are tables. -/
def PtState.Gets (s : PtState) (d : ℕ) (va : BitVec 64) : Prop :=
  ∃ t o, s.getPte d va true = some (t, o) ∧
    ∀ p ∈ s.mem.free, p ∉ t.mem.free → ∃ q, t.node d q = p

/-- `kalloc` comes back, and if it has taken the page, this is one of its pages. -/
def KallocState.Allocates (s : KallocState) (sizeInput : BitVec 64) (page : Option ℕ) : Prop :=
  ∃ p t, s.kallocAny sizeInput page = some (p, t) ∧
    (t.pages = s.pages ∨ ∃ q ∈ page, q ∈ t.pages.map Prod.fst)

/-! ### Messages -/

/-- The segments are as many as in `loadSegs` of the bytes. -/
theorem length_loadSegs (src : ℕ → UInt8) : ∀ (fuel off len page : ℕ), len ≤ fuel →
    (loadSegs src fuel off len page).length = msgSegs len
  | 0, off, len, page => by
    intro hlen
    obtain rfl := Nat.le_zero.mp hlen
    rfl
  | fuel + 1, off, len, page => by
    intro hlen
    unfold loadSegs
    split
    · rename_i hpos
      rw [List.length_cons, length_loadSegs src fuel _ _ _ (by simp only [msgMsgsegsz]; omega)]
      simp only [msgSegs, msgMsgsegsz]
      omega
    · rename_i hzero
      obtain rfl := Nat.eq_zero_of_not_pos hzero
      rfl

/-- A message has so many pages. -/
theorem length_pages_loadMsg (msgp : Msgbuf) (len page : ℕ) :
    (loadMsg msgp len page).pages.length = msgPages len := by
  have hsegs := length_loadSegs msgp.data (len - min msgMsgsz len)
    (min msgMsgsz (len - min msgMsgsz len)) (len - min msgMsgsz len) (page + 1) (Nat.le_refl _)
  unfold MsgMsg.pages
  rw [List.length_append, List.length_map, List.length_singleton]
  exact congrArg (· + 1) hsegs

namespace PageMem

variable {m m' : PageMem} {p : Addr}

theorem kallocPage_cons {free : List Addr} (h : m.free = p :: free) :
    ∃ m', m.kallocPage = some (p, m') ∧ m'.free = free := by
  refine ⟨_, by rw [kallocPage, h], rfl⟩

/-- The loop takes the first pages of the list, if there are enough. -/
theorem loadSegs_eq : ∀ (fuel : ℕ) (m : PageMem) (pages : List Addr) (len : ℕ),
    (∀ p ∈ m.free, p ≠ 0) → len ≤ fuel →
    (m.free.length < msgSegs len → loadSegs fuel m pages len = none) ∧
      (msgSegs len ≤ m.free.length → ∃ m',
        loadSegs fuel m pages len = some (some (pages ++ m.free.take (msgSegs len)), m') ∧
          m'.free = m.free.drop (msgSegs len))
  | 0, m, pages, len => by
    intro _ hlen
    obtain rfl := Nat.le_zero.mp hlen
    refine ⟨fun h => (Nat.not_lt_zero _ h).elim, fun _ => ⟨m, ?_, rfl⟩⟩
    show some (some pages, m) = some (some (pages ++ []), m)
    rw [List.append_nil]
  | fuel + 1, m, pages, len => by
    intro hne hlen
    unfold loadSegs
    by_cases hpos : 0 < len
    · have hsegs : msgSegs len = msgSegs (len - min msgMsgsegsz len) + 1 := by
        simp only [msgSegs, msgMsgsegsz]
        omega
      rw [if_pos hpos, hsegs]
      cases hlist : m.free with
      | nil =>
        have hnone : m.kallocPage = none := by rw [kallocPage, hlist]
        rw [hnone]
        exact ⟨fun _ => rfl, fun h => (Nat.not_succ_le_zero _ h).elim⟩
      | cons p free =>
        obtain ⟨m', hpage, hfree⟩ := kallocPage_cons hlist
        have hp : p ≠ 0 := hne p (hlist ▸ List.mem_cons_self)
        rw [hpage]
        dsimp only
        rw [if_neg hp]
        obtain ⟨hfew, hmany⟩ := loadSegs_eq fuel m' (pages ++ [p]) (len - min msgMsgsegsz len)
          (fun q hq => hne q (hlist ▸ List.mem_cons_of_mem p (hfree ▸ hq)))
          (by simp only [msgMsgsegsz]; omega)
        rw [hfree] at hfew hmany
        constructor
        · intro hlt
          exact hfew (Nat.lt_of_succ_lt_succ hlt)
        · intro hle
          obtain ⟨m'', hload, hrest⟩ := hmany (Nat.le_of_succ_le_succ hle)
          refine ⟨m'', ?_, hrest⟩
          rw [hload, List.append_assoc]
          rfl
    · obtain rfl := Nat.eq_zero_of_not_pos hpos
      refine ⟨fun h => (Nat.not_lt_zero _ h).elim, fun _ => ⟨m, ?_, rfl⟩⟩
      rw [if_neg hpos]
      show some (some pages, m) = some (some (pages ++ []), m)
      rw [List.append_nil]

/-- `load_msg` keeps its promise if there are enough pages. -/
theorem loads_iff (hne : ∀ p ∈ m.free, p ≠ 0) (len : ℕ) :
    m.Loads len ↔ msgPages len ≤ m.free.length := by
  cases hlist : m.free with
  | nil =>
    have hnone : m.loadMsg len = none := by
      have hpage : m.kallocPage = none := by rw [kallocPage, hlist]
      rw [loadMsg, hpage]
    refine iff_of_false ?_ (Nat.not_succ_le_zero _)
    rintro ⟨o, m', hload, -⟩
    rw [hnone] at hload
    cases hload
  | cons p free =>
    obtain ⟨m', hpage, hfree⟩ := kallocPage_cons hlist
    have hp : p ≠ 0 := hne p (hlist ▸ List.mem_cons_self)
    have hload : m.loadMsg len =
        loadSegs (len - min msgMsgsz len) m' [p] (len - min msgMsgsz len) := by
      rw [loadMsg, hpage]
      exact if_neg hp
    obtain ⟨hfew, hmany⟩ := loadSegs_eq (len - min msgMsgsz len) m' [p] (len - min msgMsgsz len)
      (fun q hq => hne q (hlist ▸ List.mem_cons_of_mem p (hfree ▸ hq))) (Nat.le_refl _)
    rw [hfree] at hfew hmany
    rw [List.length_cons, msgPages, Nat.succ_le_succ_iff, Loads, hload, hlist]
    constructor
    · rintro ⟨o, m'', hsome, -⟩
      by_contra hlt
      rw [hfew (Nat.lt_of_not_le hlt)] at hsome
      cases hsome
    · intro hle
      obtain ⟨m'', hsome, hrest⟩ := hmany hle
      refine ⟨_, m'', hsome, fun q hq hnot => ⟨_, rfl, ?_⟩⟩
      rcases List.mem_cons.mp hq with rfl | hq
      · exact List.mem_cons_self
      · rw [hrest] at hnot
        rw [← List.take_append_drop (msgSegs (len - min msgMsgsz len)) free] at hq
        exact List.mem_cons_of_mem p ((List.mem_append.mp hq).resolve_right hnot)

end PageMem

/-! ### Page tables -/

namespace PtState

variable {s t : PtState} {d : ℕ} {r : List PtIndex}

/-- Where nothing changes nothing more is missing. -/
theorem missingBelow_congr : ∀ (is : List PtIndex) (r : List PtIndex),
    (∀ q, q ≠ [] → t.node d (q ++ r) = s.node d (q ++ r)) →
    missingBelow t d r is = missingBelow s d r is
  | [], r => fun _ => rfl
  | i :: is, r => by
    intro hnode
    have hfirst : t.node d (i :: r) = s.node d (i :: r) := hnode [i] (List.cons_ne_nil i [])
    have hrest : missingBelow t d (i :: r) is = missingBelow s d (i :: r) is := by
      refine missingBelow_congr is (i :: r) fun q _ => ?_
      have hpath : q ++ i :: r = (q ++ [i]) ++ r := by
        rw [List.append_assoc, List.singleton_append]
      rw [hpath]
      exact hnode (q ++ [i]) (List.append_ne_nil_of_right_ne_nil q (List.cons_ne_nil i []))
    rw [missingBelow, missingBelow, hfirst, hrest]

/-- Below a table that has just been made nothing is new. -/
theorem Walked.below (h : Walked s t d r) (hnone : s.node d r = 0) (q : List PtIndex)
    (hq : q ≠ []) : t.node d (q ++ r) = s.node d (q ++ r) := by
  have hzero : s.node d (q ++ r) = 0 := Radix.node_append_of_zero hnone q
  by_contra hne
  rw [hzero] at hne
  obtain ⟨-, hsuffix⟩ := h.tables.grow d (q ++ r) hzero hne
  have hlength := hsuffix.length_le
  rw [List.length_append] at hlength
  exact hq (List.eq_nil_of_length_eq_zero (by omega))

/-- The walk comes back if there is a page for each missing table. -/
theorem walk_isSome_iff : ∀ (is : List PtIndex) {s : PtState} {r : List PtIndex}, s.Tables →
    s.node d r ≠ 0 → r.length + is.length ≤ 3 →
    ((walk s.mem (s.node d r) true is).isSome ↔ missingBelow s d r is ≤ s.mem.free.length)
  | [], s, r => fun _ _ _ => iff_of_true rfl (Nat.zero_le _)
  | i :: is, s, r => by
    intro hs hr hlen
    have hlen' : (i :: r).length + is.length ≤ 3 := by
      simp only [List.length_cons] at hlen ⊢
      omega
    have hlt : r.length < 3 := by
      rw [List.length_cons] at hlen
      omega
    have hcons : s.node d (i :: r) = tableRadix.child (s.mem.words (s.node d r) i) :=
      Radix.node_cons hr hlt
    unfold walk missingBelow
    by_cases hword : s.mem.words (s.node d r) i = 0
    · -- a table is made
      have hnone : s.node d (i :: r) = 0 := by rw [hcons, hword]; rfl
      rw [if_pos hnone]
      cases hlist : s.mem.free with
      | nil =>
        have hnext : nextTable s.mem (s.node d r) i true = none := by
          rw [nextTable, if_pos hword, if_pos rfl, PageMem.kallocPage, hlist]
        rw [hnext]
        refine iff_of_false (by simp) ?_
        rw [List.length_nil]
        omega
      | cons p free =>
        obtain ⟨m, table, hnext, -⟩ := nextTable_true (m := s.mem)
          (by rw [hlist]; exact List.cons_ne_nil p free) (s.node d r) i
        obtain ⟨ht, hwalked, hnode, hne, -⟩ := nextTable_spec hs hr hlt hnext
        have hfree : m.free = free := by
          rw [nextTable, if_pos hword, if_pos rfl, PageMem.kallocPage, hlist] at hnext
          cases hnext
          rfl
        have hsame := missingBelow_congr is (i :: r) (hwalked.below hnone)
        rw [hnext]
        dsimp only
        rw [if_neg (hne rfl), ← hnode, walk_isSome_iff is ht (hnode ▸ hne rfl) hlen', hsame]
        show _ ≤ m.free.length ↔ _
        rw [hfree, List.length_cons]
        omega
    · have hnode : s.node d (i :: r) = p2k (pteAddress (s.mem.words (s.node d r) i)) :=
        hcons.trans (child_of_ne hword)
      have hne : s.node d (i :: r) ≠ 0 := hnode ▸ p2k_pteAddress_ne _
      have hnext : nextTable s.mem (s.node d r) i true = some (s.mem, s.node d (i :: r)) := by
        rw [hnode]
        exact if_neg hword
      rw [hnext, if_neg hne, Nat.zero_add]
      dsimp only
      rw [if_neg hne]
      exact walk_isSome_iff is hs hne hlen'

/-- And so does `get_pte`. -/
theorem getPte_isSome_iff (hs : s.Tables) (d : ℕ) (va : BitVec 64) :
    (s.getPte d va true).isSome ↔ missingTables s d va ≤ s.mem.free.length := by
  unfold missingTables
  by_cases hroot : s.pt d = 0
  · rw [if_pos hroot]
    cases hlist : s.mem.free with
    | nil =>
      have hnone : s.getPte d va true = none := by
        unfold getPte
        simp only [hroot, if_true, PageMem.kallocPage, hlist, Option.map_none]
      rw [hnone]
      refine iff_of_false (by simp) ?_
      rw [List.length_nil]
      omega
    | cons p free =>
      -- the root table is made, and the walk starts from it
      obtain ⟨m, hpage, hfree⟩ := PageMem.kallocPage_cons hlist
      obtain ⟨ht, hwalked, hpt, hne⟩ := hs.newRoot hroot hpage
      have hget : (s.getPte d va true).isSome =
          (walk m p true [pdIndex va 39, pdIndex va 30, pdIndex va 21]).isSome := by
        unfold getPte
        simp only [hroot, if_true, hpage, Option.map_some, if_neg hne]
        cases walk m p true [pdIndex va 39, pdIndex va 30, pdIndex va 21] <;> rfl
      have hiff := walk_isSome_iff [pdIndex va 39, pdIndex va 30, pdIndex va 21] (r := []) ht
        (show _ ≠ 0 from hpt ▸ hne) (Nat.le_refl 3)
      have hnode : PtState.node { mem := m, pt := Function.update s.pt d p } d [] = p := hpt
      rw [missingBelow_congr _ [] (hwalked.below (d := d) hroot), hnode] at hiff
      rw [hget]
      refine hiff.trans ?_
      show _ ≤ m.free.length ↔ _
      rw [hfree, List.length_cons]
      omega
  · rw [if_neg hroot, Nat.zero_add]
    have hget : (s.getPte d va true).isSome =
        (walk s.mem (s.pt d) true [pdIndex va 39, pdIndex va 30, pdIndex va 21]).isSome := by
      unfold getPte
      simp only [hroot, if_false]
      cases walk s.mem (s.pt d) true [pdIndex va 39, pdIndex va 30, pdIndex va 21] <;> rfl
    rw [hget]
    exact walk_isSome_iff _ (r := []) hs hroot (Nat.le_refl 3)

/-- `get_pte` keeps its promise if there is a page for each missing table. -/
theorem gets_iff (hs : s.Tables) (d : ℕ) (va : BitVec 64) :
    s.Gets d va ↔ missingTables s d va ≤ s.mem.free.length := by
  rw [← getPte_isSome_iff hs]
  constructor
  · rintro ⟨t, o, hget, -⟩
    exact Option.isSome_iff_exists.mpr ⟨_, hget⟩
  · intro hsome
    obtain ⟨⟨t, o⟩, hget⟩ := Option.isSome_iff_exists.mp hsome
    obtain ⟨-, hwalked, -⟩ := getPte_spec hs hget
    exact ⟨t, o, hget, hwalked.used⟩

end PtState

/-! ### Blocks -/

namespace KallocState

/-- Carving takes no page. -/
theorem carve_pages (page bs : ℕ) : ∀ (n : ℕ) (s : KallocState) (p : ℕ),
    (carve page bs n s p).pages = s.pages
  | 0, _, _ => rfl
  | n + 1, s, p => by
    unfold carve
    split
    · exact carve_pages page bs n (s.addMemory bs p) (p + bs)
    · rfl

/-- The page that is taken is one of the pages of the allocator. -/
theorem kalloc_pages (s : KallocState) (size page : ℕ) : (s.kalloc size page).2.pages =
    if s.table (sizeClass size) = 0 then (page, pow 2 (sizeClass size)) :: s.pages
    else s.pages := by
  show (if s.table (sizeClass size) = 0 then
    carve page (pow 2 (sizeClass size)) pageSize (s.newPage page (pow 2 (sizeClass size))) (page + 64)
    else s).pages = _
  split
  · exact carve_pages _ _ _ _ _
  · rfl

/-- `kalloc` keeps its promise if the size is served, and if it needs no page or gets one. -/
theorem allocates_iff {s : KallocState} (h : kallocAnySystem.Reachable (fun _ _ => True) s)
    (sizeInput : BitVec 64) (page : Option ℕ) (hpage : ∀ p ∈ page, s.Unused p) :
    s.Allocates sizeInput page ↔ sizeInput.toNat ≤ pageSize / 2 ∧
      (s.table (sizeClass sizeInput.toNat) ≠ 0 ∨ page ≠ none) := by
  obtain ⟨free, hinv⟩ := inv_of_reachable_any h
  constructor
  · rintro ⟨p, t, hk, -⟩
    exact (hinv.kallocAny_some hpage hk).1
  · rintro ⟨hle, hready⟩
    refine ⟨(s.kalloc sizeInput.toNat (page.getD 0)).1, (s.kalloc sizeInput.toNat (page.getD 0)).2,
      (hinv.kallocAny_small hle hpage hready).1, ?_⟩
    rw [kalloc_pages]
    split
    · rename_i hempty
      obtain ⟨p, rfl⟩ := Option.ne_none_iff_exists'.mp (hready.resolve_left (not_not_intro hempty))
      exact .inr ⟨p, rfl, List.mem_map.mpr ⟨_, List.mem_cons_self, rfl⟩⟩
    · exact .inl rfl

end KallocState

/-- **Out of pages.**  In every state of the pool: `kalloc_page` keeps its promise if and only if
a page is free, `load_msg` if and only if there is a page for the message and one for each
segment, `get_pte` if and only if there is one for each missing table, and `kalloc` (which is
given the first free page) if and only if it serves the size and its list is not empty or a
page is free. -/
theorem outOfPages_iff (first : ℕ) (s : PoolState)
    (h : (poolSystem first).Reachable (PoolState.Allowed first) s) :
    ∃ free : List Addr, Chain (fun p => s.words p 0) s.pages free ∧
      (∀ p ∈ free, p ∈ usablePages first) ∧
      (s.Gives free ↔ free ≠ []) ∧
      (∀ len, (s.view free).Loads len ↔ msgPages len ≤ free.length) ∧
      (∀ pt d va, (PtState.mk (s.view free) pt).Tables →
        ((PtState.mk (s.view free) pt).Gets d va ↔
          (PtState.mk (s.view free) pt).missingTables d va ≤ free.length)) ∧
      ∀ k : KallocState, kallocAnySystem.Reachable (fun _ _ => True) k → ∀ sizeInput,
        (∀ p ∈ free.head?, k.Unused p.toNat) →
        (k.Allocates sizeInput (free.head?.map BitVec.toNat) ↔ sizeInput.toNat ≤ pageSize / 2 ∧
          (k.table (sizeClass sizeInput.toNat) ≠ 0 ∨ free ≠ [])) := by
  obtain ⟨free, hfree, hacc⟩ := PoolState.inv_of_reachable h
  have hempty : s.pages = 0 ↔ free = [] := by
    refine ⟨fun hzero => Chain.eq_nil (hzero ▸ hfree), fun hnil => ?_⟩
    rwa [hnil] at hfree
  have hne : ∀ p ∈ free, p ≠ 0 := fun p hp => (validPage_of_usable (hacc.usable p hp)).ne_zero
  refine ⟨free, hfree, hacc.usable, ⟨?_, fun hsome => ?_⟩, fun len => PageMem.loads_iff hne len,
    fun pt d va ht => PtState.gets_iff ht d va, fun k hk sizeInput hunused => ?_⟩
  · rintro ⟨p, t, hpage, -⟩ hnil
    rw [PoolState.kallocPage_eq_none.mpr (hempty.mpr hnil)] at hpage
    cases hpage
  · refine ⟨_, _, PoolState.kallocPage_of_ne fun hzero => hsome (hempty.mp hzero), .inl ?_⟩
    cases free with
    | nil => exact (hsome rfl).elim
    | cons p free =>
      rw [hfree.1]
      exact List.mem_cons_self
  · have hpage : ∀ p ∈ free.head?.map BitVec.toNat, k.Unused p := by
      intro p hp
      obtain ⟨q, hq, rfl⟩ := Option.map_eq_some_iff.mp hp
      exact hunused q hq
    rw [KallocState.allocates_iff hk sizeInput _ hpage]
    refine and_congr_right fun _ => or_congr_right ?_
    rw [ne_eq, ne_eq, Option.map_eq_none_iff, List.head?_eq_none_iff]

/-- With two pages a message of 5000 bytes goes in. -/
theorem outOfPages_two : ∃ free : List Addr, free.length = 2 ∧
    ((PoolState.initPages 0x3effe fun _ _ => 0).view free).Loads 5000 := by
  obtain ⟨free, hfree, -, -, hloads, -⟩ := outOfPages_iff 0x3effe
    (PoolState.initPages 0x3effe fun _ _ => 0) ⟨_, ⟨_, rfl⟩, .refl _⟩
  have htwo : Chain (fun p => (PoolState.initPages 0x3effe fun _ _ => 0).words p 0)
      (PoolState.initPages 0x3effe fun _ _ => 0).pages [kernelPage 0x3efff, kernelPage 0x3effe] :=
    ⟨by decide, by decide, by decide, by decide,
      show (PoolState.initPages 0x3effe fun _ _ => 0).words (kernelPage 0x3effe) 0 = 0 by
        decide⟩
  have hlength : free.length = 2 := by rw [hfree.unique htwo]; rfl
  refine ⟨free, hlength, (hloads 5000).mpr ?_⟩
  rw [hlength]
  decide

/-- One page is left: the second page of a message is written through `NULL`; and when the page
is taken, `kalloc_page` does so itself. -/
theorem outOfPages_faults : ∃ s t : PoolState, ∃ free : List Addr,
    (poolSystem 0x3efff).Reachable (PoolState.Allowed 0x3efff) s ∧
    Chain (fun p => s.words p 0) s.pages free ∧ ¬(s.view free).Loads 5000 ∧
    (poolSystem 0x3efff).Reachable (PoolState.Allowed 0x3efff) t ∧
    Chain (fun p => t.words p 0) t.pages [] ∧ ¬t.Gives [] := by
  have hrun : ((poolSystem 0x3efff).exec (PoolState.Allowed 0x3efff)
      (PoolState.initPages 0x3efff fun _ _ => 0) [.kalloc]).map (fun s => decide (s.pages = 0)) =
      some true := by
    decide
  obtain ⟨t, ht, heq⟩ := Option.map_eq_some_iff.mp hrun
  have hempty : t.pages = 0 := of_decide_eq_true heq
  have hinit : (poolSystem 0x3efff).init (PoolState.initPages 0x3efff fun _ _ => 0) := ⟨_, rfl⟩
  have hone : Chain (fun p => (PoolState.initPages 0x3efff fun _ _ => 0).words p 0)
      (PoolState.initPages 0x3efff fun _ _ => 0).pages [kernelPage 0x3efff] :=
    ⟨by decide, by decide,
      show (PoolState.initPages 0x3efff fun _ _ => 0).words (kernelPage 0x3efff) 0 = 0 by
        decide⟩
  refine ⟨_, t, _, ⟨_, hinit, .refl _⟩, hone, ?_, ⟨_, hinit, System.leads_of_exec ht⟩, hempty, ?_⟩
  · rintro ⟨o, m, hload, -⟩
    have hnone : ((PoolState.initPages 0x3efff fun _ _ => 0).view [kernelPage 0x3efff]).loadMsg
        5000 = none := Option.isNone_iff_eq_none.mp (by decide)
    rw [hnone] at hload
    cases hload
  · rintro ⟨p, u, hpage, -⟩
    rw [PoolState.kallocPage_eq_none.mpr hempty] at hpage
    cases hpage

end OsLab
