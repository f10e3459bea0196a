/-
The number of cached blocks.

`cache_acquire` allocates a block when all cached ones are acquired or pinned, and
`cache_release` gives one back.  It counts after it has unlinked the block, so that
it keeps one block more than `EVICTION_THRESHOLD`, and keeps it for good.

* `Resizes` — what a sequence of calls does to the number of cached blocks;
* `wp_commit_resizes` — `commit`, and when it allocates no block;
* `cache_size` — at most `EVICTION_THRESHOLD` blocks, none of which is in use, in the
  runs in which no block is allocated, and one more in the others.
-/
import OsLab.Fs.Operations

namespace OsLab
namespace Bcache

variable {sb : SuperBlock} {s t u : Bcache} {a b c m n p q tail : ℕ}

/-- `get_num_cached_blocks` -/
def getNumCachedBlocks (s : Bcache) : ℕ := s.head.length

/-- The buffer is acquired or pinned. -/
def Busy (s : Bcache) (a : ℕ) : Prop := (s.heap a).acquired = true ∨ (s.heap a).pinned = true

instance (s : Bcache) (a : ℕ) : Decidable (s.Busy a) := inferInstanceAs (Decidable (_ ∨ _))

/-- All cached blocks are in use. -/
def Full (s : Bcache) : Prop := ∀ a ∈ s.head, s.Busy a

/-- No cached block is in use. -/
def Unused (s : Bcache) : Prop := ∀ a ∈ s.head, ¬ s.Busy a

instance (s : Bcache) : Decidable s.Unused := inferInstanceAs (Decidable (∀ a ∈ _, _))

theorem not_busy : ¬ s.Busy a ↔ (s.heap a).acquired = false ∧ (s.heap a).pinned = false := by
  rw [Busy, not_or, Bool.not_eq_true, Bool.not_eq_true]

/-- The second loop of `cache_acquire` finds no buffer exactly when all are in use. -/
theorem findVictim_eq_none : s.findVictim = none ↔ s.Full := by
  rw [findVictim, List.find?_eq_none]
  constructor
  · intro h a ha
    by_contra hidle
    rw [not_busy] at hidle
    exact h a (List.mem_reverse.mpr ha) (by rw [hidle.1, hidle.2]; rfl)
  · intro h a ha hidle
    simp only [Bool.and_eq_true, Bool.not_eq_true'] at hidle
    exact not_busy.mpr hidle (h a (List.mem_reverse.mp ha))

/-- A buffer in use is acquired by somebody or has a pinned number. -/
theorem Wf.busy_iff (hs : s.Wf) (ha : a ∈ s.head) :
    s.Busy a ↔ s.Held (s.heap a).blockNo a ∨ s.Live (s.heap a).blockNo a ∧ (s.heap a).pinned = true := by
  constructor
  · rintro (hacq | hpin)
    · exact .inl (hs.held_of_acquired ha hacq)
    · exact .inr ⟨⟨ha, hs.valid a ha (.inr hpin), rfl⟩, hpin⟩
  · rintro (hheld | hpin)
    · exact .inl hheld.2
    · exact .inr hpin.2

/-- Nothing is in use when no number is held or pinned. -/
theorem Wf.unused (hs : s.Wf) (hheld : ∀ m b, ¬ s.Held m b) (hpin : ∀ m, ¬ s.Pinned m) :
    s.Unused := by
  intro a ha hbusy
  rcases (hs.busy_iff ha).mp hbusy with h | ⟨hlive, hp⟩
  · exact hheld _ a h
  · exact hpin _ ⟨a, hlive, hp⟩

/-! ### The list -/

/-- What a sequence of calls does to the number of cached blocks.  The number of blocks
that have been allocated is `brk`. -/
structure Resizes (s t : Bcache) : Prop where
  brk_le : s.brk ≤ t.brk
  /-- more than one block above the threshold are cached only while all are in use -/
  full : (evictionThreshold + 1 < s.head.length → s.Full) →
    evictionThreshold + 1 < t.head.length → t.Full
  /-- the last block above the threshold is not given back -/
  keeps : ∀ k ≤ evictionThreshold + 1, k ≤ s.head.length → k ≤ t.head.length
  grown : evictionThreshold ≤ s.head.length → s.brk < t.brk → evictionThreshold < t.head.length
  same : t.brk = s.brk → t.head.length ≤ s.head.length

/-- A step that leaves the list alone and releases nothing. -/
theorem Resizes.of_head (hhead : t.head = s.head) (hbrk : t.brk = s.brk)
    (hbusy : ∀ a, s.Busy a → t.Busy a) : s.Resizes t where
  brk_le := Nat.le_of_eq hbrk.symm
  full hfull hlen a ha := by
    rw [hhead] at hlen ha
    exact hbusy a (hfull hlen a ha)
  keeps k _ hk := by rwa [hhead]
  grown _ hlt := absurd hlt (by omega)
  same _ := by rw [hhead]

theorem Resizes.refl (s : Bcache) : s.Resizes s := .of_head rfl rfl fun _ h => h

theorem Resizes.trans (h : s.Resizes t) (h' : t.Resizes u) : s.Resizes u where
  brk_le := h.brk_le.trans h'.brk_le
  full hfull := h'.full (h.full hfull)
  keeps k hk hlen := h'.keeps k hk (h.keeps k hk hlen)
  grown hlen hlt := by
    by_cases hst : s.brk < t.brk
    · exact h'.keeps _ (Nat.le_refl _) (h.grown hlen hst)
    · exact h'.grown (h.keeps _ (Nat.le_succ _) hlen) (by have := h.brk_le; omega)
  same heq := by
    have hst := h.brk_le
    have htu := h'.brk_le
    exact (h'.same (by omega)).trans (h.same (by omega))

/-- The list after `cache_acquire` of block `n` has returned buffer `a`. -/
inductive Enters (s : Bcache) (n a : ℕ) (t : Bcache) : Prop
  | cached (hroom : s.findBlock n ≠ none ∨ ¬ s.Full) (head : t.head = s.head) (brk : t.brk = s.brk)
  | fresh (hfind : s.findBlock n = none) (hfull : s.Full) (head : t.head = s.head ++ [a])
      (brk : t.brk = s.brk + 1)

theorem wp_acquireSleeplock {Q : Unit → Bcache → Prop}
    (hQ : ∀ B, Q () { s with heap := B }) : wp (acquireSleeplock a) Q (fun _ => True) s := by
  simp only [acquireSleeplock, wp_bind, wp_get]
  split
  · exact hQ _
  · trivial

/-- `cache_acquire` allocates exactly when the number is not cached and all blocks are
in use. -/
theorem wp_cacheAcquire_enters (s : Bcache) (n : ℕ) :
    wp (cacheAcquire n) (fun a t => s.Enters n a t) (fun _ => True) s := by
  simp only [cacheAcquire, wp_bind, wp_get, wp_set]
  refine wp_acquireSleeplock fun B => ?_
  rw [wp_modify, wp_pure]
  cases hfind : s.findBlock n with
  | some a =>
    rw [acquireSection, hfind]
    refine .cached (.inl (by simp [hfind])) ?_ ?_
    · dsimp only [fillSection]
      split <;> rfl
    · dsimp only [fillSection]
      split <;> rfl
  | none =>
    cases hvictim : s.findVictim with
    | some a =>
      rw [acquireSection, hfind, hvictim]
      refine .cached (.inr fun hfull => ?_) rfl rfl
      rw [findVictim_eq_none.mpr hfull] at hvictim
      cases hvictim
    | none =>
      rw [acquireSection, hfind, hvictim]
      exact .fresh hfind (findVictim_eq_none.mp hvictim) rfl rfl

theorem Acquires.busy (h : s.Acquires n a t) (hb : s.Busy b) : t.Busy b := by
  by_cases hba : b = a
  · rw [hba]
    exact .inl h.held.2
  · rw [Busy, h.heap b hba]
    exact hb

theorem Enters.resizes (h : s.Enters n a t) (hacq : s.Acquires n a t) : s.Resizes t := by
  cases h with
  | cached _ hhead hbrk => exact .of_head hhead hbrk fun _ => hacq.busy
  | fresh _ hfull hhead hbrk =>
    have hlen : t.head.length = s.head.length + 1 := by
      rw [hhead, List.length_append, List.length_singleton]
    refine ⟨by omega, fun _ _ b hb => ?_, fun k _ hk => by omega, fun h20 _ => by omega,
      fun heq => by omega⟩
    rw [hhead, List.mem_append, List.mem_singleton] at hb
    rcases hb with hb | rfl
    · exact hacq.busy (hfull b hb)
    · exact .inl hacq.held.2

/-- A `cache_acquire` that finds the number or a buffer allocates nothing. -/
theorem Enters.of_room (h : s.Enters n a t) (hroom : s.findBlock n ≠ none ∨ ¬ s.Full) :
    t.head = s.head ∧ t.brk = s.brk := by
  cases h with
  | cached _ hhead hbrk => exact ⟨hhead, hbrk⟩
  | fresh hfind hfull =>
    rcases hroom with hroom | hroom
    · exact absurd hfind hroom
    · exact absurd hfull hroom

/-- The list after `cache_release` of buffer `a`. -/
inductive Leaves (s : Bcache) (a : ℕ) (t : Bcache) : Prop
  | kept (head : t.head = a :: s.head.erase a) (brk : t.brk = s.brk)
      (why : (s.heap a).pinned = true ∨ (s.head.erase a).length ≤ evictionThreshold)
  | freed (head : t.head = s.head.erase a) (brk : t.brk = s.brk)
      (why : (s.heap a).pinned = false ∧ evictionThreshold < (s.head.erase a).length)

theorem wp_cacheRelease_leaves (s : Bcache) (a : ℕ) :
    wp (cacheRelease a) (fun _ t => s.Leaves a t) (fun _ => True) s := by
  simp only [cacheRelease, releaseSleeplock, wp_bind, wp_modify, releaseSection]
  split
  · rename_i hfree
    obtain ⟨hpin, hlen⟩ := Bool.and_eq_true_iff.mp hfree
    exact .freed rfl rfl ⟨by simpa [setBlock] using hpin, of_decide_eq_true hlen⟩
  · rename_i hkeep
    refine .kept rfl rfl ?_
    rw [Bool.and_eq_true_iff, not_and_or] at hkeep
    rcases hkeep with hpin | hlen
    · exact .inl (by simpa [setBlock] using hpin)
    · exact .inr (Nat.le_of_not_lt fun hlt => hlen (decide_eq_true hlt))

theorem Leaves.resizes (h : s.Leaves a t) (hs : s.Wf) (hrel : s.Releases n a t) : s.Resizes t := by
  have ha : a ∈ s.head := hrel.was_held.1.1
  have hpos : 0 < s.head.length := List.length_pos_of_mem ha
  have herase := List.length_erase_of_mem ha
  have hother : ∀ b, b ≠ a → s.Busy b → t.Busy b := fun b hba hb => by
    rw [Busy, hrel.heap b hba]
    exact hb
  cases h with
  | kept hhead hbrk hwhy =>
    have hlen : t.head.length = s.head.length := by
      rw [hhead, List.length_cons]
      omega
    refine ⟨by omega, fun hfull hlt b hb => ?_, fun k _ hk => by omega, fun _ hlt => by omega,
      fun _ => by omega⟩
    rw [hhead, List.mem_cons] at hb
    by_cases hba : b = a
    · -- the count forbids to keep it unless it is pinned
      rw [hba]
      have hpin := hwhy.resolve_right (by omega)
      exact .inr (hrel.pinned.trans hpin)
    · exact hother b hba (hfull (by omega) b (List.mem_of_mem_erase (hb.resolve_left hba)))
  | freed hhead hbrk hwhy =>
    have hlen : t.head.length = s.head.length - 1 := by rw [hhead, herase]
    refine ⟨by omega, fun hfull hlt b hb => ?_, fun k _ hk => by omega, fun _ hlt => by omega,
      fun _ => by omega⟩
    rw [hhead, hs.nodup.mem_erase_iff] at hb
    exact hother b hb.1 (hfull (by omega) b hb.2)

theorem Leaves.brk_eq (h : s.Leaves a t) : t.brk = s.brk := by
  cases h with
  | kept _ hbrk => exact hbrk
  | freed _ hbrk => exact hbrk

/-- With no more blocks than the threshold a release keeps all of them. -/
theorem Leaves.mem_iff (h : s.Leaves a t) (ha : a ∈ s.head)
    (hlen : s.head.length ≤ evictionThreshold + 1) (b : ℕ) : b ∈ t.head ↔ b ∈ s.head := by
  have herase := List.length_erase_of_mem ha
  cases h with
  | kept hhead =>
    rw [hhead, List.mem_cons]
    by_cases hba : b = a
    · simp [hba, ha]
    · simp [hba, List.mem_erase_of_ne hba]
  | freed _ _ hwhy => omega

/-! ### The copies of `commit` -/

/-- A pinned buffer is not evicted. -/
theorem Acquires.live_pinned (h : s.Acquires n a t) (hb : s.Live m b)
    (hp : (s.heap b).pinned = true) : t.Live m b ∧ (t.heap b).pinned = true := by
  rcases h.keep m b hb with ⟨hlive, hpin⟩ | ⟨-, -, -, hpin⟩
  · exact ⟨hlive, hpin.trans hp⟩
  · rw [hp] at hpin
    cases hpin

/-- What one copy does to what is in use: the client holds what it held before. -/
structure Passes (s t : Bcache) : Prop where
  wf : t.Wf
  header : t.header = s.header
  held_iff : ∀ m b, t.Held m b ↔ s.Held m b
  resizes : s.Resizes t

theorem Passes.trans (h : s.Passes t) (h' : t.Passes u) : s.Passes u where
  wf := h'.wf
  header := h'.header.trans h.header
  held_iff m b := (h'.held_iff m b).trans (h.held_iff m b)
  resizes := h.resizes.trans h'.resizes

/-- The buffers `a` and `b` have been released after a copy for which no block was
allocated; `u` is the state before their release. -/
structure Closes (s : Bcache) (a b : ℕ) (u t : Bcache) : Prop where
  mem_iff : ∀ c, c ∈ t.head ↔ c ∈ s.head
  brk : t.brk = s.brk
  heap : ∀ c, c ≠ a → c ≠ b → t.heap c = s.heap c
  idle : (t.heap a).acquired = false ∧ (t.heap b).acquired = false
  pinned : ∀ c, (t.heap c).pinned = (u.heap c).pinned
  live : ∀ m c, u.Live m c → (u.heap c).pinned = true → t.Live m c

/-- The end of a copy from buffer `b` to buffer `a`. -/
theorem Both.wp_passes (h : s.Both p a q b t) {v : BlockData} {U : ℕ → Prop}
    (hres : s.Resizes t) (hstore : t.Stores p a v U u) (hheadu : u.head = t.head)
    (hbrku : u.brk = t.brk) :
    wp (do cacheRelease b; cacheRelease a)
      (fun _ w => s.Passes w ∧ (∀ m, w.Pinned m ↔ s.Pinned m ∧ ¬ U m) ∧
        (s.head.length ≤ evictionThreshold → t.head = s.head → t.brk = s.brk → s.Closes a b u w))
      (fun _ => True) u := by
  have hpa : u.Held p a :=
    (hstore.held_iff p a).mpr ((h.held_iff p a).mpr (.inr (.inl ⟨rfl, rfl⟩)))
  have hqb : u.Held q b :=
    (hstore.held_iff q b).mpr ((h.held_iff q b).mpr (.inr (.inr ⟨rfl, rfl⟩)))
  have hresu : t.Resizes u := .of_head hheadu hbrku fun c hc => by
    by_cases hca : c = a
    · rw [hca]
      exact .inl hpa.2
    · rw [Busy, hstore.heap c hca]
      exact hc
  have htrue : ∀ e : Fault, True ∧ True → True := fun _ _ => trivial
  rw [wp_bind]
  refine wp_mono (wp_and (wp_cacheRelease hstore.wf hqb) (wp_cacheRelease_leaves u b))
    (fun _ w hw => ?_) htrue
  obtain ⟨hw, hlw⟩ := hw
  have hwa : w.Held p a := (hw.held_iff hstore.wf).mpr ⟨hpa, h.ne⟩
  refine wp_mono (wp_and (wp_cacheRelease hw.wf hwa) (wp_cacheRelease_leaves w a))
    (fun _ x hx => ?_) htrue
  obtain ⟨hx, hlx⟩ := hx
  have hresw := hlw.resizes hstore.wf hw
  refine ⟨⟨hx.wf, ?_, fun m c => ?_, ?_⟩, fun m => ?_, fun hlen hhead hbrk => ?_⟩
  · rw [hx.header, hw.header, hstore.header, h.quiet.header]
  · rw [hx.held_iff hw.wf, hw.held_iff hstore.wf, hstore.held_iff, h.held_iff]
    constructor
    · rintro ⟨⟨hc | ⟨-, rfl⟩ | ⟨-, rfl⟩, hcb⟩, hca⟩
      · exact hc
      · exact absurd rfl hca
      · exact absurd rfl hcb
    · intro hc
      obtain ⟨hca, hcb⟩ := h.idle m c hc
      exact ⟨⟨.inl hc, hcb⟩, hca⟩
  · exact ((hres.trans hresu).trans hresw).trans (hlx.resizes hw.wf hx)
  · rw [hx.pinned_iff, hw.pinned_iff, hstore.pinned_iff, h.quiet.pinned_iff]
  · have hheads : u.head = s.head := hheadu.trans hhead
    have hlenu : u.head.length ≤ evictionThreshold := by rwa [hheads]
    have hlenw := (hresw.same hlw.brk_eq).trans hlenu
    refine ⟨fun c => ?_, ?_, fun c hca hcb => ?_, ⟨hx.acquired, ?_⟩, fun c => ?_,
      fun m c hc hp => ?_⟩
    · rw [hlx.mem_iff hwa.1.1 (by omega), hlw.mem_iff hqb.1.1 (by omega), hheads]
    · rw [hlx.brk_eq, hlw.brk_eq, hbrku, hbrk]
    · rw [hx.heap c hca, hw.heap c hcb, hstore.heap c hca, h.heap c hca hcb]
    · rw [hx.heap b h.ne.symm]
      exact hw.acquired
    · rw [hx.pinned_eq, hw.pinned_eq]
    · -- a release frees no pinned buffer
      rcases hw.keep m c hc with hcw | ⟨-, -, hno⟩
      · rcases hx.keep m c hcw with hcx | ⟨-, -, hno⟩
        · exact hcx
        · rw [hw.pinned_eq, hp] at hno
          cases hno
      · rw [hp] at hno
        cases hno

/-- The two acquires of a copy. -/
theorem wp_acquireTwo {Q : Unit → Bcache → Prop} {f : ℕ → ℕ → CacheM Unit} (hs : s.Wf)
    (hf : ∀ a b t u, s.Acquires p a t → s.Enters p a t → t.Acquires (s.header.entry tail) b u →
      t.Enters (s.header.entry tail) b u → wp (f a b) Q (fun _ => True) u) :
    wp (do
        let a ← cacheAcquire p
        let n ← headerBlockNo tail
        let b ← cacheAcquire n
        f a b)
      Q (fun _ => True) s := by
  have htrue : ∀ e : Fault, True ∧ True → True := fun _ _ => trivial
  rw [wp_bind]
  refine wp_mono (wp_and (wp_cacheAcquire (E := fun _ => True) hs fun _ _ => trivial)
    (wp_cacheAcquire_enters s p)) (fun a t ht => ?_) htrue
  obtain ⟨ht, het⟩ := ht
  by_cases htail : tail < logMaxSize
  · rw [wp_bind]
    refine wp_headerBlockNo htail ?_
    rw [ht.header, wp_bind]
    refine wp_mono (wp_and (wp_cacheAcquire (E := fun _ => True) ht.wf fun _ _ => trivial)
      (wp_cacheAcquire_enters t _)) (fun b u hu => ?_) htrue
    exact hf a b t u ht het hu.1 hu.2
  · rw [wp_bind, headerBlockNo, if_neg htail, wp_throw]
    trivial

/-- The first `k` log blocks are cached, or a cached block is not in use. -/
def Roomy (sb : SuperBlock) (k : ℕ) (s : Bcache) : Prop :=
  s.Full → ∀ i < k, ∃ c, s.Live (sb.logBlock i) c

/-- A buffer that is in nobody's hands and not pinned. -/
theorem not_full (ha : a ∈ s.head) (hacq : (s.heap a).acquired = false)
    (hpin : (s.heap a).pinned = false) : ¬ s.Full := fun hfull =>
  not_busy.mpr ⟨hacq, hpin⟩ (hfull a ha)

/-- The lookup finds a live buffer. -/
theorem Wf.findBlock_ne_none (hs : s.Wf) (h : ∃ c, s.Live n c) : s.findBlock n ≠ none := by
  obtain ⟨c, hc⟩ := h
  rw [hs.findBlock n c hc]
  exact Option.some_ne_none c

/-- The buffer of a pinned number is pinned before it is acquired. -/
theorem Acquires.pinned_before (h : s.Acquires n a t) (hp : s.Pinned n) :
    s.Live n a ∧ (s.heap a).pinned = true := by
  obtain ⟨d, hd, hpd⟩ := hp
  obtain rfl := h.wf.unique (h.live_pinned hd hpd).1 h.held.1
  exact ⟨hd, hpd⟩

/-- The two acquires of a copy allocate nothing when the log block is cached or a cached
block is not in use, and the logged block is pinned. -/
theorem Acquires.head_eq (h : s.Acquires p a t) (hs : s.Wf) (he : s.Enters p a t)
    (he' : t.Enters q b u) (hp : ¬ s.Full ∨ ∃ c, s.Live p c) (hq : s.Pinned q) :
    u.head = s.head ∧ u.brk = s.brk := by
  have hfirst := he.of_room (hp.symm.imp_left hs.findBlock_ne_none)
  obtain ⟨d, hd, -⟩ := h.pinned_iff.mpr hq
  have hsecond := he'.of_room (.inl (h.wf.findBlock_ne_none ⟨d, hd⟩))
  exact ⟨hsecond.1.trans hfirst.1, hsecond.2.trans hfirst.2⟩

/-- One iteration of the first loop: it keeps the room that it found. -/
theorem wp_commitToLog_passes {k : ℕ} (hs : s.Wf) (htail : tail < k) :
    wp (commitToLog sb tail)
      (fun _ t => s.Passes t ∧ (∀ m, t.Pinned m ↔ s.Pinned m) ∧
        (s.head.length ≤ evictionThreshold → s.Pinned (s.header.entry tail) → s.Roomy sb k →
          t.brk = s.brk ∧ t.Roomy sb k))
      (fun _ => True) s := by
  rw [commitToLog]
  refine wp_acquireTwo hs fun a b t u ht het hu heu => ?_
  have hboth := ht.both hs hu
  have hpa : u.Held (sb.logBlock tail) a := (hboth.held_iff _ a).mpr (.inr (.inl ⟨rfl, rfl⟩))
  have hstore : u.Stores (sb.logBlock tail) a (u.heap b).data (fun _ => False)
      ((u.setBlock a fun c => { c with data := (u.heap b).data }).deviceWrite a) := by
    have hst := hboth.quiet.wf.stores hpa (v := (u.heap b).data) (U := fun _ => False)
      (fun _ h => h.elim) (f := fun c => { c with data := (u.heap b).data }) rfl rfl rfl rfl rfl
      (by simp)
    simpa [deviceWrite, hpa.1.2.2] using hst
  have hpinu : ∀ c, (((u.setBlock a fun c => { c with data := (u.heap b).data }).deviceWrite a).heap
      c).pinned = (u.heap c).pinned := by
    intro c
    by_cases hca : c = a
    · simp [deviceWrite, writeDevice, setBlock, hca]
    · simp [deviceWrite, writeDevice, setBlock, hca]
  rw [wp_bind, copyAndWrite, wp_modify]
  refine wp_mono (hboth.wp_passes ((het.resizes ht).trans (heu.resizes hu)) hstore rfl rfl)
    (fun _ w hw => ?_) fun _ he => he
  obtain ⟨hpass, hpin, hclose⟩ := hw
  refine ⟨hpass, fun m => (hpin m).trans (and_iff_left id), fun hlen hentry hroomy => ?_⟩
  have hroom : ¬ s.Full ∨ ∃ c, s.Live (sb.logBlock tail) c := by
    by_cases hfull : s.Full
    · exact .inr (hroomy hfull tail htail)
    · exact .inl hfull
  obtain ⟨hhead, hbrk⟩ := ht.head_eq hs het heu hroom hentry
  have hcl := hclose hlen hhead hbrk
  refine ⟨hcl.brk, fun hfullw => ?_⟩
  have hamem : a ∈ w.head := (hcl.mem_iff a).mpr (hhead ▸ hpa.1.1)
  -- the buffer of the log block is in use at the end, so it is pinned
  have hpinned : (u.heap a).pinned = true := by
    rcases hfullw a hamem with hacq | hp
    · rw [hcl.idle.1] at hacq
      cases hacq
    · rwa [hcl.pinned, hpinu] at hp
  have hpinlog : s.Pinned (sb.logBlock tail) :=
    (hboth.quiet.pinned_iff _).mp ⟨a, hpa.1, hpinned⟩
  have hbefore := ht.pinned_before hpinlog
  have hbbefore := hu.pinned_before (ht.pinned_iff.mpr hentry)
  have hfull : s.Full := by
    intro x hx
    by_cases hxa : x = a
    · rw [hxa]
      exact .inr hbefore.2
    · by_cases hxb : x = b
      · rw [hxb, Busy, ← ht.heap b hboth.ne.symm]
        exact .inr hbbefore.2
      · rw [Busy, ← hcl.heap x hxa hxb]
        exact hfullw x ((hcl.mem_iff x).mpr hx)
  intro i hi
  obtain ⟨c, hc⟩ := hroomy hfull i hi
  rcases hfull c hc.1 with hacq | hp
  · exact ⟨c, ((hpass.held_iff _ c).mpr ⟨hc, hacq⟩).1⟩
  · obtain ⟨hct, hpt⟩ := ht.live_pinned hc hp
    obtain ⟨hcu, hpu⟩ := hu.live_pinned hct hpt
    exact ⟨c, hcl.live _ c ((hstore.live_iff _ c).mpr hcu) ((hpinu c).trans hpu)⟩

/-- One iteration of the second loop: the block that it unpins is not in use any more. -/
theorem wp_commitToHome_passes {k : ℕ} (hs : s.Wf) (htail : tail < k) :
    wp (commitToHome sb tail)
      (fun _ t => s.Passes t ∧ (∀ m, t.Pinned m ↔ s.Pinned m ∧ m ≠ s.header.entry tail) ∧
        (s.head.length ≤ evictionThreshold → s.Pinned (s.header.entry tail) → s.Roomy sb k →
          t.brk = s.brk ∧ t.Roomy sb k))
      (fun _ => True) s := by
  rw [commitToHome]
  refine wp_acquireTwo hs fun a b t u ht het hu heu => ?_
  have hboth := (ht.both hs hu).symm
  have hpb : u.Held (s.header.entry tail) b := (hboth.held_iff _ b).mpr (.inr (.inl ⟨rfl, rfl⟩))
  have hstore := hboth.quiet.wf.stores hpb (v := (u.heap a).data)
    (U := (· = s.header.entry tail)) (fun _ h => h)
    (f := fun c => { c with data := (u.heap a).data, pinned := false }) rfl rfl rfl rfl rfl
    (by simp)
  have hheap : ((u.setBlock b fun c => { c with data := (u.heap a).data }).deviceWrite b).setBlock b
      (fun c => { c with pinned := false })
      = (u.setBlock b fun c => { c with data := (u.heap a).data, pinned := false }).writeDevice
        (s.header.entry tail) (u.heap a).data := by
    simp [deviceWrite, writeDevice, setBlock, hpb.1.2.2]
  rw [wp_bind, copyAndWrite, wp_modify, wp_bind, wp_modify, hheap]
  refine wp_mono (hboth.wp_passes ((het.resizes ht).trans (heu.resizes hu)) hstore rfl rfl)
    (fun _ w hw => ?_) fun _ he => he
  obtain ⟨hpass, hpin, hclose⟩ := hw
  refine ⟨hpass, hpin, fun hlen hentry hroomy => ?_⟩
  have hroom : ¬ s.Full ∨ ∃ c, s.Live (sb.logBlock tail) c := by
    by_cases hfull : s.Full
    · exact .inr (hroomy hfull tail htail)
    · exact .inl hfull
  obtain ⟨hhead, hbrk⟩ := ht.head_eq hs het heu hroom hentry
  have hcl := hclose hlen hhead hbrk
  refine ⟨hcl.brk, fun hfullw => absurd hfullw ?_⟩
  refine not_full ((hcl.mem_iff b).mpr (hhead ▸ hpb.1.1)) hcl.idle.1 ?_
  rw [hcl.pinned]
  simp [writeDevice, setBlock]

/-- A write to the device concerns no buffer. -/
theorem Wf.passes_writeDevice (hs : s.Wf) (d : BlockData) : s.Passes (s.writeDevice n d) where
  wf := ⟨hs.nodup, hs.lt_brk, hs.findBlock, hs.valid, hs.lock, hs.freed⟩
  header := rfl
  held_iff _ _ := Iff.rfl
  resizes := .of_head rfl rfl fun _ h => h

/-- What `commit` finds when it allocates no block. -/
structure CommitRoom (sb : SuperBlock) (s : Bcache) : Prop where
  len : s.head.length ≤ evictionThreshold
  pinned : ∀ n ∈ s.header.logged, s.Pinned n
  nodup : s.header.logged.Nodup
  roomy : s.Roomy sb s.header.numBlocks

/-- **`commit`** and the number of cached blocks. -/
theorem wp_commit_resizes (hs : s.Wf) :
    wp (commit sb)
      (fun _ t => t.Wf ∧ (∀ m b, t.Held m b ↔ s.Held m b) ∧ s.Resizes t ∧ t.header.numBlocks = 0 ∧
        (s.CommitRoom sb → t.brk = s.brk))
      (fun _ => True) s := by
  have hmem : ∀ k < s.header.numBlocks, s.header.entry k ∈ s.header.logged := fun k hk =>
    List.mem_map_of_mem (List.mem_range.mpr hk)
  rw [commit, wp_bind, wp_get, wp_bind]
  refine wp_mono (wp_forUpTo
    (fun _ t => s.Passes t ∧ (∀ m, t.Pinned m ↔ s.Pinned m) ∧
      (s.CommitRoom sb → t.brk = s.brk ∧ t.Roomy sb s.header.numBlocks))
    ⟨⟨hs, rfl, fun _ _ => Iff.rfl, .refl s⟩, fun _ => Iff.rfl, fun h => ⟨rfl, h.roomy⟩⟩
    fun k hk t ht => ?_) (fun _ t ht => ?_) fun _ he => he
  · obtain ⟨hpass, hpin, hroom⟩ := ht
    refine wp_mono (wp_commitToLog_passes hpass.wf hk) (fun _ w hw => ?_) fun _ he => he
    obtain ⟨hpassw, hpinw, hroomw⟩ := hw
    rw [hpass.header] at hroomw
    refine ⟨hpass.trans hpassw, fun m => (hpinw m).trans (hpin m), fun h => ?_⟩
    obtain ⟨hbrk, hroomy⟩ := hroom h
    have hlen := (hpass.resizes.same hbrk).trans h.len
    obtain ⟨hbrkw, hroomyw⟩ := hroomw hlen ((hpin _).mpr (h.pinned _ (hmem k hk))) hroomy
    exact ⟨hbrkw.trans hbrk, hroomyw⟩
  obtain ⟨hpass, hpin, hroom⟩ := ht
  rw [writeHeader, wp_bind, wp_modify, wp_bind]
  refine wp_mono (wp_forUpTo
    (fun k t => s.Passes t ∧
      (∀ m, t.Pinned m ↔ s.Pinned m ∧ ∀ j < k, m ≠ s.header.entry j) ∧
      (s.CommitRoom sb → t.brk = s.brk ∧ t.Roomy sb s.header.numBlocks))
    ⟨hpass.trans (hpass.wf.passes_writeDevice _), fun m => ?_, hroom⟩
    fun k hk t ht => ?_) (fun _ t ht => ?_) fun _ he => he
  · exact (hpin m).trans (and_iff_left fun j hj => absurd hj (Nat.not_lt_zero j)).symm
  · obtain ⟨hpass, hpin, hroom⟩ := ht
    refine wp_mono (wp_commitToHome_passes hpass.wf hk) (fun _ w hw => ?_) fun _ he => he
    obtain ⟨hpassw, hpinw, hroomw⟩ := hw
    rw [hpass.header] at hpinw hroomw
    refine ⟨hpass.trans hpassw, fun m => ?_, fun h => ?_⟩
    · rw [hpinw, hpin, and_assoc, Nat.forall_lt_succ_right]
    · obtain ⟨hbrk, hroomy⟩ := hroom h
      have hlen := (hpass.resizes.same hbrk).trans h.len
      -- a block is logged once, so this one is pinned still
      have hstill : t.Pinned (s.header.entry k) := by
        refine (hpin _).mpr ⟨h.pinned _ (hmem k hk), fun j hj heq => ?_⟩
        have hkj := List.inj_on_of_nodup_map h.nodup (List.mem_range.mpr hk)
          (List.mem_range.mpr (hj.trans hk)) heq
        omega
      obtain ⟨hbrkw, hroomyw⟩ := hroomw hlen hstill hroomy
      exact ⟨hbrkw.trans hbrk, hroomyw⟩
  · obtain ⟨hpass, -, hroom⟩ := ht
    rw [clearHeader, wp_bind, wp_modify, writeHeader, wp_modify]
    refine ⟨⟨hpass.wf.nodup, hpass.wf.lt_brk, hpass.wf.findBlock, hpass.wf.valid, hpass.wf.lock,
      hpass.wf.freed⟩, hpass.held_iff, ?_, rfl, fun h => (hroom h).1⟩
    exact hpass.resizes.trans (.of_head rfl rfl fun _ h => h)

/-! ### `init_bcache` -/

/-- Nothing is in use, and as many blocks are cached as `init_bcache` has allocated. -/
structure Fresh (s : Bcache) : Prop where
  wf : s.Wf
  held : ∀ m b, ¬ s.Held m b
  pinned : ∀ m, ¬ s.Pinned m
  len : s.head.length = evictionThreshold
  brk : s.brk = evictionThreshold

theorem fresh_boot (D : ℕ → BlockData) : (Bcache.boot sb D).Fresh where
  wf := wf_boot D
  held m b hb := not_live_boot D m hb.1
  pinned m := by
    rintro ⟨b, hb, -⟩
    exact not_live_boot D m hb
  len := by rw [boot, List.length_reverse, List.length_range]
  brk := rfl

/-- One iteration of the loop of `recover_from_log`: two of the cached blocks are enough. -/
theorem wp_recoverBlock_fresh (h : s.Fresh) :
    wp (recoverBlock sb tail) (fun _ t => t.Fresh) (fun _ => True) s := by
  have hunused := h.wf.unused h.held h.pinned
  rw [recoverBlock]
  refine wp_acquireTwo h.wf fun a b t u ht het hu heu => ?_
  have hboth := (ht.both h.wf hu).symm
  have hpb : u.Held (s.header.entry tail) b := (hboth.held_iff _ b).mpr (.inr (.inl ⟨rfl, rfl⟩))
  have hstore := hboth.quiet.wf.stores hpb (v := (u.heap a).data)
    (U := fun _ => False) (fun _ h => h.elim)
    (f := fun c => { c with data := (u.heap a).data }) rfl rfl rfl rfl rfl (by simp)
  have hwrite : (u.setBlock b fun c => { c with data := (u.heap a).data }).deviceWrite b
      = (u.setBlock b fun c => { c with data := (u.heap a).data }).writeDevice
        (s.header.entry tail) (u.heap a).data := by
    simp [deviceWrite, hpb.1.2.2]
  rw [wp_bind, copyAndWrite, wp_modify, hwrite]
  refine wp_mono (hboth.wp_passes ((het.resizes ht).trans (heu.resizes hu)) hstore rfl rfl)
    (fun _ w hw => ?_) fun _ he => he
  obtain ⟨hpass, hpin, hclose⟩ := hw
  -- there are at least two buffers, so one is left for the second acquire
  have hroom : ∀ c, ∃ d ∈ s.head, d ≠ c := by
    intro c
    have hpos : 0 < (s.head.erase c).length := by
      have herase := List.length_erase (a := c) (l := s.head)
      have hlen := h.len
      simp only [evictionThreshold] at hlen
      split at herase <;> omega
    obtain ⟨d, hd⟩ := List.exists_mem_of_length_pos hpos
    rw [h.wf.nodup.mem_erase_iff] at hd
    exact ⟨d, hd.2, hd.1⟩
  have hnot : ¬ s.Full := by
    obtain ⟨d, hd, -⟩ := hroom 0
    exact fun hfull => hunused d hd (hfull d hd)
  obtain ⟨hhead, hbrk⟩ := het.of_room (.inr hnot)
  have hnot' : ¬ t.Full := by
    obtain ⟨d, hd, hda⟩ := hroom a
    intro hfull
    have hbusy := hfull d (hhead ▸ hd)
    rw [Busy, ht.heap d hda] at hbusy
    exact hunused d hd hbusy
  obtain ⟨hhead', hbrk'⟩ := heu.of_room (.inr hnot')
  have hcl := hclose (Nat.le_of_eq h.len) (hhead'.trans hhead) (hbrk'.trans hbrk)
  refine ⟨hpass.wf, fun m c hc => h.held m c ((hpass.held_iff m c).mp hc),
    fun m hm => h.pinned m ((hpin m).mp hm).1, ?_, hcl.brk.trans h.brk⟩
  have hle := hpass.resizes.same hcl.brk
  have hge := hpass.resizes.keeps _ (Nat.le_succ _) (Nat.le_of_eq h.len.symm)
  exact Nat.le_antisymm (hle.trans (Nat.le_of_eq h.len)) hge

/-- **`init_bcache`** allocates `EVICTION_THRESHOLD` blocks. -/
theorem fresh_of_initBcache {D : ℕ → BlockData} (h : initBcache sb D = .ok s) :
    s.Fresh ∧ s.header.numBlocks = 0 := by
  have hwp : wp (recoverFromLog sb) (fun _ t => t.Fresh ∧ t.header.numBlocks = 0) (fun _ => True)
      (Bcache.boot sb D) := by
    rw [recoverFromLog, wp_bind, wp_get, wp_bind]
    refine wp_mono (wp_forUpTo (fun _ t => t.Fresh) (fresh_boot D)
      fun k _ t ht => wp_recoverBlock_fresh ht) (fun _ t ht => ?_) fun _ he => he
    rw [clearHeader, wp_bind, wp_modify, writeHeader, wp_modify]
    refine ⟨⟨?_, ht.held, ht.pinned, ht.len, ht.brk⟩, rfl⟩
    exact ⟨ht.wf.nodup, ht.wf.lt_brk, ht.wf.findBlock, ht.wf.valid, ht.wf.lock, ht.wf.freed⟩
  rw [initBcache] at h
  cases hrun : (recoverFromLog sb).run (Bcache.boot sb D) with
  | error e =>
    rw [hrun] at h
    cases h
  | ok r =>
    rw [hrun] at h
    cases h
    have hdone := wp_run hwp hrun
    exact hdone

end Bcache

/-! ### Runs of a client -/

/-- Every `cache_acquire` of the call, those of `commit` included, finds its number or a
buffer that is not in use. -/
def FindsRoom (sb : SuperBlock) (s : OpState) : OpCall → Prop
  | .acquire n => s.cache.findBlock n ≠ none ∨ s.cache.findVictim ≠ none
  | .commit => s.cache.findVictim ≠ none ∨
      ∀ i < s.cache.header.numBlocks, s.cache.findBlock (sb.logBlock i) ≠ none
  | _ => True

instance (sb : SuperBlock) (s : OpState) (l : OpCall) : Decidable (FindsRoom sb s l) :=
  match l with
  | .acquire _ => inferInstanceAs (Decidable (_ ∨ _))
  | .commit => inferInstanceAs (Decidable (_ ∨ ∀ i < _, _))
  | .beginOp | .modify _ _ | .sync _ _ | .release _ | .endOp _ => inferInstanceAs (Decidable True)

namespace OpState

variable {sb : SuperBlock} {s t : OpState}

/-- What holds between the calls of any client. -/
structure Sized (s : OpState) : Prop where
  wf : s.cache.Wf
  held_iff : ∀ a, a ∈ s.held ↔ ∃ n, s.cache.Held n a
  pinned : ∀ n ∈ s.cache.header.logged, s.cache.Pinned n
  nodup : s.cache.header.logged.Nodup

/-- What one call does to the number of cached blocks. -/
structure CallResizes (sb : SuperBlock) (s : OpState) (l : OpCall) (t : OpState) : Prop where
  sized : t.Sized
  resizes : s.cache.Resizes t.cache
  room : FindsRoom sb s l → s.cache.head.length ≤ evictionThreshold → t.cache.brk = s.cache.brk

theorem sized_init (h : (opSystem sb).init s) : s.Sized ∧ s.cache.Fresh := by
  obtain ⟨-, hboot, -, hheld, -⟩ := h
  obtain ⟨hfresh, hzero⟩ := Bcache.fresh_of_initBcache hboot
  have hlogged : s.cache.header.logged = [] := by
    rw [LogHeader.logged, hzero]
    rfl
  refine ⟨⟨hfresh.wf, fun a => ?_, by simp [hlogged], by simp [hlogged]⟩, hfresh⟩
  rw [hheld]
  refine iff_of_false (Finset.notMem_empty a) ?_
  rintro ⟨n, hn⟩
  exact hfresh.held n a hn

/-- A call that only changes the log. -/
theorem Sized.of_log (h : s.Sized) {log : Log} {l : OpCall}
    (ht : t.cache = { s.cache with log := log }) (hheld : t.held = s.held) :
    s.CallResizes sb l t := by
  refine ⟨⟨?_, fun a => ?_, ?_, ?_⟩, ?_, fun _ _ => by rw [ht]⟩
  · rw [ht]
    exact ⟨h.wf.nodup, h.wf.lt_brk, h.wf.findBlock, h.wf.valid, h.wf.lock, h.wf.freed⟩
  · rw [ht, hheld]
    exact h.held_iff a
  · rw [ht]
    exact h.pinned
  · rw [ht]
    exact h.nodup
  · rw [ht]
    exact .of_head rfl rfl fun _ hb => hb

theorem resizes_acquire {n : ℕ} (h : s.Sized) (hs : s.step sb (.acquire n) = some t) :
    s.CallResizes sb (.acquire n) t ∧ ∃ a, s.cache.Enters n a t.cache := by
  simp only [step] at hs
  split at hs
  · rename_i a cache hrun
    cases hs
    have hdone := wp_run (wp_and
      (Bcache.wp_cacheAcquire (E := fun _ => True) h.wf fun _ _ => trivial)
      (Bcache.wp_cacheAcquire_enters s.cache n)) hrun
    obtain ⟨hacq, henter⟩ := hdone
    refine ⟨⟨⟨hacq.wf, fun b => ?_, fun m hm => ?_, ?_⟩, henter.resizes hacq, fun hroom _ => ?_⟩,
      a, henter⟩
    · rw [Finset.mem_insert, h.held_iff]
      constructor
      · rintro (rfl | ⟨m, hm⟩)
        · exact ⟨n, hacq.held⟩
        · exact ⟨m, hacq.held_iff.mpr (.inl hm)⟩
      · rintro ⟨m, hm⟩
        rcases hacq.held_iff.mp hm with hold | ⟨-, rfl⟩
        · exact .inr ⟨m, hold⟩
        · exact .inl rfl
    · rw [hacq.header] at hm
      exact hacq.pinned_iff.mpr (h.pinned m hm)
    · rw [hacq.header]
      exact h.nodup
    · refine (henter.of_room (hroom.imp_right fun hvictim hfull => ?_)).2
      exact hvictim (Bcache.findVictim_eq_none.mpr hfull)
  · cases hs

theorem resizes_release {a : ℕ} (h : s.Sized) (hs : s.step sb (.release a) = some t) :
    s.CallResizes sb (.release a) t := by
  simp only [step] at hs
  split at hs
  · rename_i ha
    obtain ⟨n, hn⟩ := (h.held_iff a).mp ha
    split at hs
    · rename_i u cache hrun
      cases hs
      have hdone := wp_run (wp_and (Bcache.wp_cacheRelease (E := fun _ => True) h.wf hn)
        (Bcache.wp_cacheRelease_leaves s.cache a)) hrun
      obtain ⟨hrel, hleave⟩ := hdone
      refine ⟨⟨hrel.wf, fun b => ?_, fun m hm => ?_, ?_⟩, hleave.resizes h.wf hrel,
        fun _ _ => hleave.brk_eq⟩
      · rw [Finset.mem_erase, h.held_iff]
        constructor
        · rintro ⟨hba, m, hm⟩
          exact ⟨m, (hrel.held_iff h.wf).mpr ⟨hm, hba⟩⟩
        · rintro ⟨m, hm⟩
          obtain ⟨hold, hba⟩ := (hrel.held_iff h.wf).mp hm
          exact ⟨hba, m, hold⟩
      · rw [hrel.header] at hm
        exact hrel.pinned_iff.mpr (h.pinned m hm)
      · rw [hrel.header]
        exact h.nodup
    · cases hs
  · cases hs

/-- An assignment to a buffer that the client holds, which unpins nothing. -/
theorem Sized.setBlock (h : s.Sized) {a : ℕ} {f : Block → Block} {l : OpCall} (ha : a ∈ s.held)
    (hf : ∀ b : Block, (f b).blockNo = b.blockNo ∧ (f b).valid = b.valid ∧
      (f b).acquired = b.acquired ∧ (f b).lock = b.lock)
    (hpin : ∀ b : Block, b.pinned = true → (f b).pinned = true)
    (ht : t.cache = { s.cache.setBlock a f with header := t.cache.header })
    (hheld : t.held = s.held) (hnodup : t.cache.header.logged.Nodup)
    (hlogged : ∀ n ∈ t.cache.header.logged, n ∈ s.cache.header.logged ∨
      n = (s.cache.heap a).blockNo ∧ (f (s.cache.heap a)).pinned = true) :
    s.CallResizes sb l t := by
  obtain ⟨n, hn⟩ := (h.held_iff a).mp ha
  obtain ⟨hno, hvalid, hacq, hlock⟩ := hf (s.cache.heap a)
  have hwf := h.wf.setBlock (f := f) hno hvalid hacq hlock fun _ => hn.1.2.1
  have hkeep : ∀ b, (s.cache.heap b).pinned = true →
      ((s.cache.setBlock a f).heap b).pinned = true := by
    intro b hb
    by_cases hba : b = a
    · rw [hba, Bcache.heap_setBlock_self]
      exact hpin _ (hba ▸ hb)
    · rw [Bcache.heap_setBlock_ne hba]
      exact hb
  have hlive : ∀ m b, (s.cache.setBlock a f).Live m b ↔ s.cache.Live m b := fun m b =>
    Bcache.live_setBlock hno hvalid
  have hbusy : ∀ b, s.cache.Busy b → (s.cache.setBlock a f).Busy b := by
    rintro b (hb | hb)
    · by_cases hba : b = a
      · rw [hba, Bcache.Busy, Bcache.heap_setBlock_self, hacq]
        exact .inl hn.2
      · rw [Bcache.Busy, Bcache.heap_setBlock_ne hba]
        exact .inl hb
    · exact .inr (hkeep b hb)
  refine ⟨⟨?_, fun b => ?_, fun m hm => ?_, hnodup⟩, ?_, fun _ _ => by rw [ht]; rfl⟩
  · rw [ht]
    exact ⟨hwf.nodup, hwf.lt_brk, hwf.findBlock, hwf.valid, hwf.lock, hwf.freed⟩
  · rw [hheld, h.held_iff, ht]
    exact exists_congr fun m => (Bcache.held_setBlock hno hvalid hacq).symm
  · rw [ht]
    rcases hlogged m hm with hold | ⟨rfl, hpinned⟩
    · obtain ⟨b, hb, hp⟩ := h.pinned m hold
      exact ⟨b, (hlive m b).mpr hb, hkeep b hp⟩
    · refine ⟨a, (hlive _ a).mpr ⟨hn.1.1, hn.1.2.1, rfl⟩, ?_⟩
      show ((s.cache.setBlock a f).heap a).pinned = true
      rw [Bcache.heap_setBlock_self]
      exact hpinned
  · rw [ht]
    exact .of_head rfl rfl hbusy

theorem resizes_commit (h : s.Sized) (hs : s.step sb .commit = some t) :
    s.CallResizes sb .commit t := by
  simp only [step] at hs
  split at hs
  · split at hs
    · rename_i u cache hrun
      cases hs
      have hwp : wp (commitSection sb)
          (fun _ c => c.Wf ∧ (∀ m b, c.Held m b ↔ s.cache.Held m b) ∧ s.cache.Resizes c ∧
            c.header.numBlocks = 0 ∧ (s.cache.CommitRoom sb → c.brk = s.cache.brk))
          (fun _ => True) s.cache := by
        rw [commitSection, wp_bind]
        refine wp_mono (Bcache.wp_commit_resizes h.wf) (fun _ c hc => ?_) fun _ he => he
        obtain ⟨hwf, hheld, hres, hrest⟩ := hc
        rw [wp_modify]
        exact ⟨⟨hwf.nodup, hwf.lt_brk, hwf.findBlock, hwf.valid, hwf.lock, hwf.freed⟩, hheld,
          hres.trans (.of_head rfl rfl fun _ hb => hb), hrest⟩
      have hdone := wp_run hwp hrun
      obtain ⟨hwf, hheld, hres, hzero, hroom⟩ := hdone
      have hlogged : cache.header.logged = [] := by
        rw [LogHeader.logged, hzero]
        rfl
      refine ⟨⟨hwf, fun b => ?_, by simp [hlogged], by simp [hlogged]⟩, hres, fun hl hlen => ?_⟩
      · rw [h.held_iff]
        exact exists_congr fun m => (hheld m b).symm
      · refine hroom ⟨hlen, h.pinned, h.nodup, fun hfull i hi => ?_⟩
        -- a cached log block is live, since it is in use
        have hfind := hl.resolve_left (fun hno => hno (Bcache.findVictim_eq_none.mpr hfull)) i hi
        obtain ⟨c, hc⟩ := Option.ne_none_iff_exists'.mp hfind
        have hmem := Bcache.mem_of_findBlock hc
        exact ⟨c, hmem, h.wf.valid c hmem (hfull c hmem), Bcache.blockNo_of_findBlock hc⟩
    · cases hs
  · cases hs

/-- **One call.** -/
theorem resizes_step {l : OpCall} (h : s.Sized) (hs : s.step sb l = some t) :
    s.CallResizes sb l t := by
  cases l with
  | beginOp =>
    obtain ⟨log, -, rfl⟩ := step_beginOp hs
    exact h.of_log rfl rfl
  | acquire n => exact (resizes_acquire h hs).1
  | modify a d =>
    obtain ⟨ha, rfl⟩ := step_modify hs
    exact h.setBlock ha (f := fun b => { b with data := d }) (fun _ => ⟨rfl, rfl, rfl, rfl⟩)
      (fun _ hp => hp) rfl rfl h.nodup fun n hn => .inl hn
  | sync ctx a =>
    cases ctx with
    | none =>
      obtain ⟨ha, rfl⟩ := step_sync_none hs
      refine ⟨⟨?_, h.held_iff, h.pinned, h.nodup⟩, .of_head rfl rfl fun _ hb => hb, fun _ _ => rfl⟩
      exact ⟨h.wf.nodup, h.wf.lt_brk, h.wf.findBlock, h.wf.valid, h.wf.lock, h.wf.freed⟩
    | some c =>
      obtain ⟨ha, -, rm, header, habs, rfl⟩ := step_sync_some hs
      refine h.setBlock ha (f := fun b => { b with pinned := true })
        (fun _ => ⟨rfl, rfl, rfl, rfl⟩) (fun _ _ => rfl) rfl rfl ?_ fun n hn => ?_
      · rcases LogHeader.absorb_cases habs with ⟨-, -, -, heq⟩ | ⟨hnew, -, -, -, -, heq⟩
        · show header.logged.Nodup
          rw [heq]
          exact h.nodup
        · show header.logged.Nodup
          rw [heq]
          refine List.nodup_append.mpr ⟨h.nodup, List.nodup_singleton _, fun m hm k hk heq' => ?_⟩
          rw [List.mem_singleton.mp hk] at heq'
          exact hnew (heq' ▸ hm)
      · have hn' : n ∈ header.logged := hn
        rcases LogHeader.absorb_cases habs with ⟨-, -, -, heq⟩ | ⟨-, -, -, -, -, heq⟩
        · exact .inl (heq ▸ hn')
        · rw [heq, List.mem_append, List.mem_singleton] at hn'
          exact hn'.imp_right fun hna => ⟨hna, rfl⟩
  | release a => exact resizes_release h hs
  | endOp c =>
    obtain ⟨-, -, log, -, rfl⟩ := step_endOp hs
    exact h.of_log rfl rfl
  | commit => exact resizes_commit h hs

/-- From the state that `init_bcache` leaves. -/
theorem resizes_of_reachable {ok : OpState → OpCall → Prop} (h : (opSystem sb).Reachable ok s) :
    s.Sized ∧ ∃ s₀ : Bcache, s₀.Fresh ∧ s₀.Resizes s.cache := by
  refine h.induction (I := fun s => s.Sized ∧ ∃ s₀ : Bcache, s₀.Fresh ∧ s₀.Resizes s.cache)
    (fun s₀ hinit => ?_) fun u l v hu _ hs => ?_
  · obtain ⟨hsized, hfresh⟩ := sized_init hinit
    exact ⟨hsized, s₀.cache, hfresh, .refl _⟩
  · obtain ⟨hsized, s₀, hfresh, hres⟩ := hu
    have hcall := resizes_step hsized hs
    exact ⟨hcall.sized, s₀, hfresh, hres.trans hcall.resizes⟩

/-- While every call has room no block is allocated. -/
theorem brk_of_findsRoom (h : (opSystem sb).Reachable (FindsRoom sb) s) :
    s.cache.brk = evictionThreshold ∧ s.cache.head.length ≤ evictionThreshold := by
  refine h.strong_induction
    (I := fun s => s.cache.brk = evictionThreshold ∧ s.cache.head.length ≤ evictionThreshold)
    (fun s₀ hinit => ?_) fun u l v hreach hu hl hs => ?_
  · have hfresh := (sized_init hinit).2
    exact ⟨hfresh.brk, Nat.le_of_eq hfresh.len⟩
  · have hcall := resizes_step (resizes_of_reachable hreach).1 hs
    have hbrk := hcall.room hl hu.2
    exact ⟨hbrk.trans hu.1, (hcall.resizes.same hbrk).trans hu.2⟩

end OpState

/-- **The number of cached blocks.**  In a run in which every `cache_acquire` finds its
number or a buffer that is not in use, at most `EVICTION_THRESHOLD` blocks are cached.  In
every other run one more may be cached when none is in use, and it is so exactly when a
block has been allocated since `init_bcache`, which a `cache_acquire` does exactly when it
finds neither. -/
theorem cache_size (sb : SuperBlock) :
    (∀ s : OpState, (opSystem sb).Reachable (FindsRoom sb) s → s.cache.Unused →
      s.cache.getNumCachedBlocks ≤ evictionThreshold) ∧
    ∀ s : OpState, (opSystem sb).Reachable (fun _ _ => True) s →
      (s.cache.Unused → s.cache.getNumCachedBlocks ≤ evictionThreshold + 1 ∧
        (s.cache.getNumCachedBlocks ≤ evictionThreshold ↔ s.cache.brk = evictionThreshold)) ∧
      ∀ n t, (opSystem sb).step s (.acquire n) = some t →
        (FindsRoom sb s (.acquire n) ↔ t.cache.brk = s.cache.brk) := by
  refine ⟨fun s h _ => (OpState.brk_of_findsRoom h).2, fun s h => ?_⟩
  obtain ⟨hsized, s₀, hfresh, hres⟩ := OpState.resizes_of_reachable h
  refine ⟨fun hunused => ⟨?_, fun hlen => ?_, fun hbrk => ?_⟩, fun n t hs => ?_⟩
  · -- with two blocks too many all would be in use
    by_contra hlt
    have hlen := hfresh.len
    have hfull := hres.full (fun hlt' => by omega) (Nat.lt_of_not_le hlt)
    obtain ⟨a, ha⟩ : ∃ a, a ∈ s.cache.head := by
      refine List.exists_mem_of_length_pos ?_
      rw [Bcache.getNumCachedBlocks] at hlt
      omega
    exact hunused a ha (hfull a ha)
  · by_contra hne
    have hle := hres.brk_le
    rw [hfresh.brk] at hle
    have hgrown := hres.grown (Nat.le_of_eq hfresh.len.symm) (by rw [hfresh.brk]; omega)
    rw [Bcache.getNumCachedBlocks] at hlen
    omega
  · have hsame := hres.same (hbrk.trans hfresh.brk.symm)
    rwa [hfresh.len] at hsame
  · have hcall : s.step sb (.acquire n) = some t := hs
    obtain ⟨-, a, henter⟩ := OpState.resizes_acquire hsized hcall
    constructor
    · intro hroom
      refine (henter.of_room (hroom.imp_right fun hvictim hfull => ?_)).2
      exact hvictim (Bcache.findVictim_eq_none.mpr hfull)
    · intro hbrk
      cases henter with
      | cached hroom =>
        refine hroom.imp_right fun hnot hnone => hnot (Bcache.findVictim_eq_none.mp hnone)
      | fresh _ _ _ hbrk' => omega

/-- Two blocks are held at once, one of them is synced and committed. -/
theorem cache_size_mkfs : ∃ s : OpState, s.cache.Unused ∧ s.commits.length = 1 ∧
    s.cache.getNumCachedBlocks ≤ evictionThreshold := by
  have hrun : ((OpState.boot .mkfs OpState.blankDisk).bind fun s =>
      (opSystem .mkfs).exec (FindsRoom .mkfs) s
        [.beginOp, .acquire 500, .acquire 501, .sync (some 0) 0, .release 0, .release 1, .endOp 0,
          .commit]).map (fun s => (decide s.cache.Unused, s.commits.length)) = some (true, 1) := by
    decide +kernel
  obtain ⟨s, hreach, -, heq⟩ :=
    OpState.exists_reachable_of_exec (OpState.sound_blankDisk .mkfs) hrun
  have hunused := of_decide_eq_true (Prod.mk.inj heq).1
  exact ⟨s, hunused, (Prod.mk.inj heq).2, (cache_size .mkfs).1 s hreach hunused⟩

/-- 21 blocks are held at once and released: all of them stay. -/
theorem cache_size_exceeded : ∃ s : OpState,
    (opSystem .mkfs).Reachable (fun _ _ => True) s ∧ s.cache.Unused ∧
    ¬ s.cache.getNumCachedBlocks ≤ evictionThreshold := by
  have hrun : ((OpState.boot .mkfs OpState.blankDisk).bind fun s =>
      (opSystem .mkfs).exec (fun _ _ => True) s
        ((List.range 21).map (fun i => .acquire (500 + i)) ++ (List.range 21).map .release)).map
      (fun s => (decide s.cache.Unused, s.cache.getNumCachedBlocks)) = some (true, 21) := by
    decide +kernel
  obtain ⟨s, hreach, -, heq⟩ :=
    OpState.exists_reachable_of_exec (OpState.sound_blankDisk .mkfs) hrun
  refine ⟨s, hreach, of_decide_eq_true (Prod.mk.inj heq).1, ?_⟩
  rw [(Prod.mk.inj heq).2]
  decide

end OsLab
