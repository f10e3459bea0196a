/-
The block cache seen through block numbers.

Between two calls of the interface the cached copies are described by four
notions: a buffer is *live* for a block number when it is on the list and holds
its data, *held* when a client has acquired it, a number is *pinned* when it has
been logged, and the *view* of a number is the content that `cache_acquire`
would return for it.  `Bcache.Wf` is the invariant of the list, the flags and
the sleep locks.

* `wp_cacheAcquire`, `wp_cacheRelease` — the two calls return, and what they do
  to what is held, pinned and viewed (`Acquires`, `Releases`);
* `Acquires.view_eq`, `Releases.view_eq` — an eviction loses nothing that is
  clean.
-/
import OsLab.Fs.Cache

namespace OsLab
namespace Bcache

variable {s t u : Bcache} {a b c m n : ℕ}

/-! ### Live buffers -/

/-- Buffer `a` is on the list and holds the data of block `n`. -/
def Live (s : Bcache) (n a : ℕ) : Prop :=
  a ∈ s.head ∧ (s.heap a).valid = true ∧ (s.heap a).blockNo = n

/-- Buffer `a` is live for `n` and acquired. -/
def Held (s : Bcache) (n a : ℕ) : Prop := s.Live n a ∧ (s.heap a).acquired = true

/-- Block `n` has a live buffer, and it is pinned. -/
def Pinned (s : Bcache) (n : ℕ) : Prop := ∃ a, s.Live n a ∧ (s.heap a).pinned = true

/-- The content that `cache_acquire` would return for block `n`. -/
def view (s : Bcache) (n : ℕ) : BlockData :=
  match s.findBlock n with
  | some a => if (s.heap a).valid then (s.heap a).data else s.device n
  | none => s.device n

/-- An idle copy of block `n` that is not pinned agrees with the device. -/
def Clean (s : Bcache) (n : ℕ) : Prop :=
  ∀ a, s.Live n a → (s.heap a).acquired = false → (s.heap a).pinned = false →
    (s.heap a).data = s.device n

/-- The invariant of the list of cached blocks.  The lookup finds the live
buffer of a number before any placeholder with the same number. -/
structure Wf (s : Bcache) : Prop where
  nodup : s.head.Nodup
  lt_brk : ∀ a ∈ s.head, a < s.brk
  findBlock : ∀ n a, s.Live n a → s.findBlock n = some a
  valid : ∀ a ∈ s.head, (s.heap a).acquired = true ∨ (s.heap a).pinned = true →
    (s.heap a).valid = true
  lock : ∀ a, (s.heap a).lock = ⟨if (s.heap a).acquired then 0 else 1, []⟩
  freed : ∀ a ∈ s.freed, a < s.brk ∧ a ∉ s.head

theorem Wf.unique (hs : s.Wf) (ha : s.Live n a) (hb : s.Live n b) : a = b :=
  Option.some.inj ((hs.findBlock n a ha).symm.trans (hs.findBlock n b hb))

theorem Live.number (ha : s.Live n a) (hb : s.Live m a) : n = m := ha.2.2.symm.trans hb.2.2

theorem mem_of_findBlock (h : s.findBlock n = some a) : a ∈ s.head := mem_of_findKey h

theorem blockNo_of_findBlock (h : s.findBlock n = some a) : (s.heap a).blockNo = n := by
  simpa [Bcache.findBlock, findKey] using List.find?_some h

/-- The view of a number with a live buffer is the data of that buffer. -/
theorem Wf.view_of_live (hs : s.Wf) (ha : s.Live n a) : s.view n = (s.heap a).data := by
  simp [view, hs.findBlock n a ha, ha.2.1]

/-- The view of a number without one is the content of the device. -/
theorem view_of_not_live (h : ∀ a, ¬ s.Live n a) : s.view n = s.device n := by
  rw [view]
  cases hfind : s.findBlock n with
  | none => rfl
  | some a =>
    have hinv : (s.heap a).valid = false := by
      by_contra hv
      exact h a ⟨mem_of_findBlock hfind, by simpa using hv, blockNo_of_findBlock hfind⟩
    simp [hinv]

theorem Wf.held_of_acquired (hs : s.Wf) (ha : a ∈ s.head) (hacq : (s.heap a).acquired = true) :
    s.Held (s.heap a).blockNo a := ⟨⟨ha, hs.valid a ha (.inl hacq), rfl⟩, hacq⟩

theorem Wf.pinned_of_live (hs : s.Wf) (ha : s.Live n a) (hp : s.Pinned n) :
    (s.heap a).pinned = true := by
  obtain ⟨b, hb, hpb⟩ := hp
  rwa [hs.unique ha hb]

/-- When the live buffer of `n`, if there was one, either keeps its data or goes
away while it agrees with the device, the view of `n` stays. -/
theorem Wf.view_eq (hs : s.Wf) (ht : t.Wf) (hdev : t.device n = s.device n)
    (hback : ∀ a, t.Live n a → s.Live n a)
    (hkeep : ∀ a, s.Live n a →
      (t.Live n a ∧ (t.heap a).data = (s.heap a).data) ∨
      (∀ b, ¬ t.Live n b) ∧ (s.heap a).data = s.device n) :
    t.view n = s.view n := by
  by_cases hlive : ∃ a, s.Live n a
  · obtain ⟨a, ha⟩ := hlive
    rw [hs.view_of_live ha]
    rcases hkeep a ha with ⟨ha', hdata⟩ | ⟨hgone, hdata⟩
    · rw [ht.view_of_live ha', hdata]
    · rw [view_of_not_live hgone, hdev, hdata]
  · rw [view_of_not_live fun a ha => hlive ⟨a, ha⟩,
      view_of_not_live fun a ha => hlive ⟨a, hback a ha⟩, hdev]

/-! ### `cache_acquire` -/

/-- What a `cache_acquire` of block `n` that returns buffer `a` does. -/
structure Acquires (s : Bcache) (n a : ℕ) (t : Bcache) : Prop where
  wf : t.Wf
  header : t.header = s.header
  log : t.log = s.log
  device : t.device = s.device
  trace : t.trace = s.trace
  /-- the buffer was not in use -/
  idle : ∀ m, ¬ s.Held m a
  heap : ∀ b, b ≠ a → t.heap b = s.heap b
  held : t.Held n a
  /-- it has the number and the content asked for -/
  data : (t.heap a).data = s.view n
  back : ∀ m b, t.Live m b → s.Live m b ∨ m = n ∧ b = a
  /-- only an idle buffer that is not pinned is evicted -/
  keep : ∀ m b, s.Live m b → (t.Live m b ∧ (t.heap b).pinned = (s.heap b).pinned) ∨
    m ≠ n ∧ (∀ c, ¬ t.Live m c) ∧ (s.heap b).acquired = false ∧ (s.heap b).pinned = false
  fresh : (∀ b, ¬ s.Live n b) → (t.heap a).pinned = false

namespace Acquires

variable (h : s.Acquires n a t)
include h

theorem blockNo_eq : (t.heap a).blockNo = n := h.held.1.2.2

theorem ne_of_held (hb : s.Held m b) : b ≠ a := by
  rintro rfl
  exact h.idle m hb

/-- Nobody held the block. -/
theorem not_held : ¬ s.Held n b := by
  intro hb
  rcases h.keep n b hb.1 with ⟨hlive, -⟩ | ⟨hne, -⟩
  · exact h.ne_of_held hb (h.wf.unique hlive h.held.1)
  · exact hne rfl

/-- The held buffers are the ones before and the new one. -/
theorem held_iff : t.Held m b ↔ s.Held m b ∨ m = n ∧ b = a := by
  constructor
  · rintro ⟨hlive, hacq⟩
    by_cases hba : b = a
    · subst hba
      exact .inr ⟨hlive.number h.held.1, rfl⟩
    · rcases h.back m b hlive with hold | ⟨-, hba'⟩
      · rw [h.heap b hba] at hacq
        exact .inl ⟨hold, hacq⟩
      · exact absurd hba' hba
  · rintro (hb | ⟨rfl, rfl⟩)
    · rcases h.keep m b hb.1 with ⟨hlive, -⟩ | ⟨-, -, hacq, -⟩
      · refine ⟨hlive, ?_⟩
        rw [h.heap b (h.ne_of_held hb)]
        exact hb.2
      · rw [hb.2] at hacq
        cases hacq
    · exact h.held

/-- Nothing becomes pinned or unpinned. -/
theorem pinned_iff : t.Pinned m ↔ s.Pinned m := by
  constructor
  · rintro ⟨b, hb, hp⟩
    by_cases hold : ∃ c, s.Live m c
    · obtain ⟨c, hc⟩ := hold
      rcases h.keep m c hc with ⟨hlive, hpin⟩ | ⟨-, hgone, -⟩
      · obtain rfl := h.wf.unique hb hlive
        exact ⟨b, hc, hpin ▸ hp⟩
      · exact absurd hb (hgone b)
    · rcases h.back m b hb with hlive | ⟨rfl, rfl⟩
      · exact absurd ⟨b, hlive⟩ hold
      · rw [h.fresh fun c hc => hold ⟨c, hc⟩] at hp
        cases hp
  · rintro ⟨b, hb, hp⟩
    rcases h.keep m b hb with ⟨hlive, hpin⟩ | ⟨-, -, -, hpin⟩
    · exact ⟨b, hlive, hpin.trans hp⟩
    · rw [hp] at hpin
      cases hpin

/-- The evicted buffer, if there is one, is clean: no view changes. -/
theorem view_eq (hs : s.Wf) (hm : m = n ∨ s.Clean m) : t.view m = s.view m := by
  by_cases hmn : m = n
  · subst hmn
    rw [h.wf.view_of_live h.held.1, h.data]
  · have hclean := hm.resolve_left hmn
    have hback : ∀ b, t.Live m b → s.Live m b := fun b hb =>
      (h.back m b hb).resolve_right fun hh => hmn hh.1
    refine hs.view_eq h.wf (by rw [h.device]) hback fun b hb => ?_
    rcases h.keep m b hb with ⟨hlive, -⟩ | ⟨-, hgone, hacq, hpin⟩
    · have hba : b ≠ a := by
        rintro rfl
        exact hmn (hlive.number h.held.1)
      exact .inl ⟨hlive, by rw [h.heap b hba]⟩
    · exact .inr ⟨hgone, hclean b hb hacq hpin⟩

theorem clean (hm : s.Clean m) : t.Clean m := by
  intro b hb hacq hpin
  by_cases hba : b = a
  · rw [hba, h.held.2] at hacq
    cases hacq
  · have hold : s.Live m b := (h.back m b hb).resolve_right fun hh => hba hh.2
    rw [h.heap b hba] at hacq hpin ⊢
    rw [h.device]
    exact hm b hold hacq hpin

end Acquires

/-- The state once buffer `a` has been given to block `n` and loaded. -/
private def installed (s : Bcache) (a : ℕ) (B : Block) (head : List ℕ) (brk : ℕ) : Bcache :=
  { s with heap := Function.update s.heap a B, head := head, brk := brk }

/-- A buffer that is not in use can be given to a block without a live one, when
the lookups of the other live buffers do not see it. -/
private theorem Wf.install (hs : s.Wf) {B : Block} {head : List ℕ} {brk : ℕ}
    (hB : B.blockNo = n ∧ B.acquired = true ∧ B.pinned = false ∧ B.lock = ⟨0, []⟩ ∧
      B.valid = true ∧ B.data = s.device n)
    (hidle : a ∈ s.head → (s.heap a).acquired = false ∧ (s.heap a).pinned = false)
    (hnone : ∀ b, ¬ s.Live n b)
    (hmem : ∀ b, b ∈ head ↔ b ∈ s.head ∨ b = a) (hnodup : head.Nodup) (hlt : ∀ b ∈ head, b < brk)
    (hbrk : s.brk ≤ brk) (hfreed : a ∉ s.freed)
    (hfind : (s.installed a B head brk).findBlock n = some a)
    (hother : ∀ m b, m ≠ n → b ≠ a → s.findBlock m = some b →
      (s.installed a B head brk).findBlock m = some b) :
    s.Acquires n a (s.installed a B head brk) := by
  obtain ⟨hno, hacq, hpin, hlock, hvalid, hdata⟩ := hB
  set t := s.installed a B head brk with ht
  have hself : t.heap a = B := by simp [ht, installed]
  have hne : ∀ b, b ≠ a → t.heap b = s.heap b := fun b hb => by simp [ht, installed, hb]
  have hlive : t.Live n a := ⟨(hmem a).mpr (.inr rfl), by rw [hself, hvalid], by rw [hself, hno]⟩
  have hback : ∀ m b, t.Live m b → s.Live m b ∨ m = n ∧ b = a := by
    rintro m b hb
    by_cases hba : b = a
    · subst hba
      exact .inr ⟨hb.number hlive, rfl⟩
    · obtain ⟨hbm, hbv, hbn⟩ := hb
      rw [hne b hba] at hbv hbn
      exact .inl ⟨((hmem b).mp hbm).resolve_right hba, hbv, hbn⟩
  have hfwd : ∀ m b, b ≠ a → s.Live m b → t.Live m b := by
    rintro m b hba ⟨hbm, hbv, hbn⟩
    rw [← hne b hba] at hbv hbn
    exact ⟨(hmem b).mpr (.inl hbm), hbv, hbn⟩
  refine
    { wf := ?_, header := rfl, log := rfl, device := rfl, trace := rfl, idle := ?_, heap := hne
      held := ⟨hlive, by rw [hself, hacq]⟩, data := ?_, back := hback, keep := ?_
      fresh := fun _ => by rw [hself, hpin] }
  · refine ⟨hnodup, hlt, fun m b hb => ?_, fun b hb hflag => ?_, fun b => ?_, fun b hb => ?_⟩
    · by_cases hba : b = a
      · subst hba
        obtain rfl := hb.number hlive
        exact hfind
      · have hold : s.Live m b := (hback m b hb).resolve_right fun hh => hba hh.2
        refine hother m b ?_ hba (hs.findBlock m b hold)
        rintro rfl
        exact hnone b hold
    · by_cases hba : b = a
      · rw [hba, hself, hvalid]
      · rw [hne b hba] at hflag ⊢
        exact hs.valid b (((hmem b).mp hb).resolve_right hba) hflag
    · by_cases hba : b = a
      · rw [hba, hself, hacq, hlock]
        rfl
      · rw [hne b hba]
        exact hs.lock b
    · refine ⟨Nat.lt_of_lt_of_le (hs.freed b hb).1 hbrk, fun hbm => ?_⟩
      rcases (hmem b).mp hbm with hold | rfl
      · exact (hs.freed b hb).2 hold
      · exact hfreed hb
  · rintro m ⟨⟨hmem', -⟩, hacq'⟩
    rw [(hidle hmem').1] at hacq'
    cases hacq'
  · rw [hself, hdata, view_of_not_live hnone]
  · intro m b hb
    by_cases hba : b = a
    · subst hba
      obtain ⟨hacq', hpin'⟩ := hidle hb.1
      have hmn : m ≠ n := by
        rintro rfl
        exact hnone b hb
      refine .inr ⟨hmn, fun c hc => ?_, hacq', hpin'⟩
      rcases hback m c hc with hold | ⟨hmn', -⟩
      · obtain rfl := hs.unique hb hold
        exact hmn (hc.number hlive)
      · exact hmn hmn'
    · exact .inl ⟨hfwd m b hba hb, by rw [hne b hba]⟩

/-- `cache_acquire` of a cached block. -/
private theorem Wf.acquires_hit (hs : s.Wf) (ha : s.Live n a) (hacq : (s.heap a).acquired = false)
    {f : Block → Block} (hf : ∀ b : Block, (f b).blockNo = b.blockNo ∧ (f b).acquired = true ∧
      (f b).pinned = b.pinned ∧ (f b).lock = (b.lock.wait 0).2 ∧ (f b).valid = b.valid ∧
      (f b).data = b.data) :
    s.Acquires n a (s.setBlock a f) := by
  set t := s.setBlock a f with ht
  have hself : t.heap a = f (s.heap a) := by simp [ht, setBlock]
  have hne : ∀ b, b ≠ a → t.heap b = s.heap b := fun b hb => by simp [ht, setBlock, hb]
  obtain ⟨hno, hacq', hpin, hlock, hvalid, hdata⟩ := hf (s.heap a)
  have hkey : ∀ b, (t.heap b).blockNo = (s.heap b).blockNo ∧ (t.heap b).valid = (s.heap b).valid ∧
      (t.heap b).pinned = (s.heap b).pinned := by
    intro b
    by_cases hba : b = a
    · rw [hba, hself]
      exact ⟨hno, hvalid, hpin⟩
    · rw [hne b hba]
      exact ⟨rfl, rfl, rfl⟩
  have hlive : ∀ m b, t.Live m b ↔ s.Live m b := by
    intro m b
    rw [Live, Live, (hkey b).1, (hkey b).2.1]
    rfl
  have hfind : ∀ m, t.findBlock m = s.findBlock m := fun m => findKey_congr fun b _ => (hkey b).1
  refine
    { wf := ?_, header := rfl, log := rfl, device := rfl, trace := rfl, idle := ?_, heap := hne
      held := ⟨(hlive n a).mpr ha, by rw [hself, hacq']⟩, data := ?_
      back := fun m b hb => .inl ((hlive m b).mp hb)
      keep := fun m b hb => .inl ⟨(hlive m b).mpr hb, (hkey b).2.2⟩
      fresh := fun hnone => absurd ha (hnone a) }
  · refine ⟨hs.nodup, hs.lt_brk, fun m b hb => ?_, fun b hb hflag => ?_, fun b => ?_, hs.freed⟩
    · rw [hfind]
      exact hs.findBlock m b ((hlive m b).mp hb)
    · rw [(hkey b).2.1]
      by_cases hba : b = a
      · rw [hba]
        exact ha.2.1
      · rw [hne b hba] at hflag
        exact hs.valid b hb hflag
    · by_cases hba : b = a
      · have hone := hs.lock a
        rw [hacq] at hone
        rw [hba, hself, hlock, hacq', hone]
        rfl
      · rw [hne b hba]
        exact hs.lock b
  · rintro m ⟨-, hm⟩
    rw [hacq] at hm
    cases hm
  · rw [hself, hdata, hs.view_of_live ha]

/-- `cache_acquire` when the sleep lock of the chosen buffer is free. -/
private theorem wp_cacheAcquire_of_free {Q : ℕ → Bcache → Prop} {E : Fault → Prop} (path : Path)
    (hsec : s.acquireSection n = (path, a, t)) (hlock : (t.heap a).lock.val = 1)
    (hQ : Q a (fillSection path a (t.setBlock a fun b => { b with lock := (b.lock.wait 0).2 }))) :
    wp (cacheAcquire n) Q E s := by
  have hfree : 0 ≤ (t.heap a).lock.val - 1 := by omega
  simp only [cacheAcquire, acquireSleeplock, wp_bind, wp_get, wp_set, hsec, if_pos hfree,
    wp_modify, wp_pure]
  exact hQ

/-- The lookup misses: no buffer is live for the number. -/
private theorem not_live_of_findBlock (hs : s.Wf) (hfind : s.findBlock n = none) (b : ℕ) :
    ¬ s.Live n b := by
  intro hb
  rw [hs.findBlock n b hb] at hfind
  cases hfind

/-- Giving buffer `a` to block `n` on the same list. -/
private theorem findBlock_installed {B : Block} (hB : B.blockNo = n) (m : ℕ) :
    (s.installed a B s.head s.brk).findBlock m
      = findKey (Function.update (fun b => (s.heap b).blockNo) a n) m s.head := by
  refine findKey_congr fun b _ => ?_
  by_cases hba : b = a
  · simp [installed, hba, hB]
  · simp [installed, hba]

/-- Path 1 over a placeholder: the buffer has the number but no data yet. -/
private theorem Wf.acquires_placeholder (hs : s.Wf) {B : Block} (hfind : s.findBlock n = some a)
    (hidle : (s.heap a).acquired = false) (hvalid : (s.heap a).valid = false)
    (hB : B.blockNo = n ∧ B.acquired = true ∧ B.pinned = false ∧ B.lock = ⟨0, []⟩ ∧
      B.valid = true ∧ B.data = s.device n) :
    s.Acquires n a (s.installed a B s.head s.brk) := by
  have hmem := mem_of_findBlock hfind
  have hpin : (s.heap a).pinned = false := by
    by_contra hpin
    rw [hs.valid a hmem (.inr (by simpa using hpin))] at hvalid
    cases hvalid
  have hsame : ∀ m, (s.installed a B s.head s.brk).findBlock m = s.findBlock m := by
    refine fun m => findKey_congr fun b _ => ?_
    by_cases hba : b = a
    · simp [installed, hba, hB.1, blockNo_of_findBlock hfind]
    · simp [installed, hba]
  refine hs.install hB (fun _ => ⟨hidle, hpin⟩) (fun b hb => ?_) (fun b => ?_) hs.nodup hs.lt_brk
    (Nat.le_refl _) (fun hfreed => (hs.freed a hfreed).2 hmem) ((hsame n).trans hfind)
    fun m b _ _ hb => (hsame m).trans hb
  · obtain rfl := Option.some.inj ((hs.findBlock n b hb).symm.trans hfind)
    rw [hb.2.1] at hvalid
    cases hvalid
  · exact ⟨.inl, fun h => h.elim id fun hba => hba ▸ hmem⟩

/-- Path 2: the least recently used idle buffer is renamed. -/
private theorem Wf.acquires_reuse (hs : s.Wf) {B : Block} (hfind : s.findBlock n = none)
    (hmem : a ∈ s.head) (hidle : (s.heap a).acquired = false ∧ (s.heap a).pinned = false)
    (hB : B.blockNo = n ∧ B.acquired = true ∧ B.pinned = false ∧ B.lock = ⟨0, []⟩ ∧
      B.valid = true ∧ B.data = s.device n) :
    s.Acquires n a (s.installed a B s.head s.brk) := by
  refine hs.install hB (fun _ => hidle) (not_live_of_findBlock hs hfind) (fun b => ?_) hs.nodup
    hs.lt_brk (Nat.le_refl _) (fun hfreed => (hs.freed a hfreed).2 hmem) ?_
    fun m b hmn hba hb => ?_
  · exact ⟨.inl, fun h => h.elim id fun hba => hba ▸ hmem⟩
  · rw [findBlock_installed hB.1]
    exact findKey_update_self hfind hmem
  · rw [findBlock_installed hB.1]
    exact findKey_update hb hba fun hnm => hmn hnm.symm

/-- Path 3: a new buffer at the end of the list. -/
private theorem Wf.acquires_fresh (hs : s.Wf) {B : Block} (hfind : s.findBlock n = none)
    (hB : B.blockNo = n ∧ B.acquired = true ∧ B.pinned = false ∧ B.lock = ⟨0, []⟩ ∧
      B.valid = true ∧ B.data = s.device n) :
    s.Acquires n s.brk (s.installed s.brk B (s.head ++ [s.brk]) (s.brk + 1)) := by
  have hbrk : s.brk ∉ s.head := fun hmem => absurd (hs.lt_brk s.brk hmem) (Nat.lt_irrefl _)
  have hold : ∀ m, findKey (fun b => ((s.installed s.brk B (s.head ++ [s.brk])
      (s.brk + 1)).heap b).blockNo) m s.head = s.findBlock m := by
    refine fun m => findKey_congr fun b hb => ?_
    have hne : b ≠ s.brk := fun hbb => hbrk (hbb ▸ hb)
    simp [installed, hne]
  refine hs.install hB (fun h => absurd h hbrk) (not_live_of_findBlock hs hfind)
    (fun b => by simp) (List.nodup_append.mpr ⟨hs.nodup, by simp, ?_⟩) (fun b hb => ?_)
    (Nat.le_succ _) (fun hfreed => absurd (hs.freed _ hfreed).1 (Nat.lt_irrefl _)) ?_
    fun m b _ _ hb => findKey_append ((hold m).trans hb)
  · rintro b hb c hc rfl
    exact hbrk (List.mem_singleton.mp hc ▸ hb)
  · rcases List.mem_append.mp hb with hb | hb
    · exact Nat.lt_succ_of_lt (hs.lt_brk b hb)
    · rw [List.mem_singleton.mp hb]
      exact Nat.lt_succ_self _
  · exact findKey_append_self ((hold n).trans hfind) (by simp [installed, hB.1])

/-- `cache_acquire` of a cached block whose sleep lock is taken. -/
private theorem wp_cacheAcquire_of_held {Q : ℕ → Bcache → Prop} {E : Fault → Prop}
    (hfind : s.findBlock n = some a) (hlock : (s.heap a).lock.val = 0) (hE : E .blocked) :
    wp (cacheAcquire n) Q E s := by
  have htaken : ¬ 0 ≤ ((s.setBlock a fun b => { b with acquired := true }).heap a).lock.val - 1 := by
    simp [setBlock, hlock]
  simp only [cacheAcquire, acquireSleeplock, wp_bind, wp_get, wp_set, acquireSection, hfind,
    if_neg htaken, wp_throw]
  exact hE

/-- **`cache_acquire`.**  It returns, unless somebody holds the block: then the
caller sleeps. -/
theorem wp_cacheAcquire (hs : s.Wf) {E : Fault → Prop} (hE : ∀ a, s.Held n a → E .blocked) :
    wp (cacheAcquire n) (fun a t => s.Acquires n a t) E s := by
  cases hfind : s.findBlock n with
  | some a =>
    have hmem := mem_of_findBlock hfind
    have hno := blockNo_of_findBlock hfind
    by_cases hheld : (s.heap a).acquired = true
    · refine wp_cacheAcquire_of_held hfind ?_ (hE a (hno ▸ hs.held_of_acquired hmem hheld))
      rw [hs.lock a, hheld]
      rfl
    have hacq : (s.heap a).acquired = false := by simpa using hheld
    have hlock : (s.heap a).lock = ⟨1, []⟩ := by
      rw [hs.lock a, hacq]
      rfl
    refine wp_cacheAcquire_of_free .hit (by rw [acquireSection, hfind])
      (by simp [setBlock, hlock]) ?_
    by_cases hvalid : (s.heap a).valid = true
    · have hhit := hs.acquires_hit ⟨hmem, hvalid, hno⟩ hacq
        (f := fun b => { b with acquired := true, lock := (b.lock.wait 0).2 })
        fun b => ⟨rfl, rfl, rfl, rfl, rfl, rfl⟩
      simpa [fillSection, setBlock, hvalid] using hhit
    · have hinvalid : (s.heap a).valid = false := by simpa using hvalid
      have hpin : (s.heap a).pinned = false := by
        by_contra hpin
        exact hvalid (hs.valid a hmem (.inr (by simpa using hpin)))
      have hload := hs.acquires_placeholder hfind hacq hinvalid
        (B := { blockNo := (s.heap a).blockNo, acquired := true, pinned := (s.heap a).pinned,
                lock := ((s.heap a).lock.wait 0).2, valid := true
                data := s.device (s.heap a).blockNo })
        ⟨hno, rfl, hpin, by rw [hlock]; rfl, rfl, by rw [hno]⟩
      simpa [fillSection, setBlock, load, deviceRead, installed, hinvalid, hpin] using hload
  | none =>
    cases hvictim : s.findVictim with
    | some a =>
      have hidle : (s.heap a).acquired = false ∧ (s.heap a).pinned = false := by
        simpa using List.find?_some hvictim
      have hmem : a ∈ s.head := List.mem_reverse.mp (List.mem_of_find?_eq_some hvictim)
      have hlock : (s.heap a).lock = ⟨1, []⟩ := by
        rw [hs.lock a, hidle.1]
        rfl
      refine wp_cacheAcquire_of_free .reuse (by rw [acquireSection, hfind, hvictim])
        (by simp [setBlock, hlock]) ?_
      have hreuse := hs.acquires_reuse hfind hmem hidle
        (B := { blockNo := n, acquired := true, pinned := (s.heap a).pinned,
                lock := ((s.heap a).lock.wait 0).2, valid := true, data := s.device n })
        ⟨rfl, rfl, hidle.2, by rw [hlock]; rfl, rfl, rfl⟩
      simpa [fillSection, setBlock, load, deviceRead, installed] using hreuse
    | none =>
      refine wp_cacheAcquire_of_free .fresh (by rw [acquireSection, hfind, hvictim])
        (by simp; rfl) ?_
      have hfresh := hs.acquires_fresh hfind
        (B := { initBlock with
          blockNo := n, acquired := true, lock := (initBlock.lock.wait 0).2, valid := true
          data := s.device n })
        ⟨rfl, rfl, rfl, rfl, rfl, rfl⟩
      simpa [fillSection, setBlock, load, deviceRead, installed] using hfresh

/-! ### `cache_release` -/

/-- What a `cache_release` of the held buffer `a` of block `n` does. -/
structure Releases (s : Bcache) (n a : ℕ) (t : Bcache) : Prop where
  wf : t.Wf
  header : t.header = s.header
  log : t.log = s.log
  device : t.device = s.device
  trace : t.trace = s.trace
  was_held : s.Held n a
  heap : ∀ b, b ≠ a → t.heap b = s.heap b
  data : (t.heap a).data = (s.heap a).data
  pinned : (t.heap a).pinned = (s.heap a).pinned
  acquired : (t.heap a).acquired = false
  back : ∀ m b, t.Live m b → s.Live m b
  /-- only the released buffer may be freed, and not while it is pinned -/
  keep : ∀ m b, s.Live m b → t.Live m b ∨
    m = n ∧ (∀ c, ¬ t.Live m c) ∧ (s.heap b).pinned = false

namespace Releases

variable (h : s.Releases n a t)
include h

theorem held_iff (hs : s.Wf) : t.Held m b ↔ s.Held m b ∧ b ≠ a := by
  constructor
  · rintro ⟨hlive, hacq⟩
    have hba : b ≠ a := by
      rintro rfl
      rw [h.acquired] at hacq
      cases hacq
    rw [h.heap b hba] at hacq
    exact ⟨⟨h.back m b hlive, hacq⟩, hba⟩
  · rintro ⟨⟨hlive, hacq⟩, hba⟩
    rcases h.keep m b hlive with hlive' | ⟨rfl, -⟩
    · exact ⟨hlive', by rwa [h.heap b hba]⟩
    · exact absurd (hs.unique hlive h.was_held.1) hba

theorem pinned_eq (b : ℕ) : (t.heap b).pinned = (s.heap b).pinned := by
  by_cases hba : b = a
  · rw [hba, h.pinned]
  · rw [h.heap b hba]

theorem data_eq (b : ℕ) : (t.heap b).data = (s.heap b).data := by
  by_cases hba : b = a
  · rw [hba, h.data]
  · rw [h.heap b hba]

theorem pinned_iff : t.Pinned m ↔ s.Pinned m := by
  constructor
  · rintro ⟨b, hb, hp⟩
    exact ⟨b, h.back m b hb, (h.pinned_eq b).symm.trans hp⟩
  · rintro ⟨b, hb, hp⟩
    rcases h.keep m b hb with hlive | ⟨-, -, hpin⟩
    · exact ⟨b, hlive, (h.pinned_eq b).trans hp⟩
    · rw [hp] at hpin
      cases hpin

/-- A release changes no view, unless it frees a modified block that is not
logged. -/
theorem view_eq (hs : s.Wf)
    (hm : m = n → s.Pinned n ∨ (s.heap a).data = s.device n) : t.view m = s.view m := by
  refine hs.view_eq h.wf (by rw [h.device]) (h.back m) fun b hb => ?_
  rcases h.keep m b hb with hlive | ⟨rfl, hgone, hpin⟩
  · exact .inl ⟨hlive, h.data_eq b⟩
  · refine .inr ⟨hgone, ?_⟩
    rcases hm rfl with hp | hdata
    · rw [hs.pinned_of_live hb hp] at hpin
      cases hpin
    · rw [hs.unique hb h.was_held.1, hdata]

theorem clean (hs : s.Wf) (hm : m ≠ n → s.Clean m)
    (hn : m = n → s.Pinned n ∨ (s.heap a).data = s.device n) : t.Clean m := by
  intro b hb hacq hpin
  rw [h.device]
  by_cases hba : b = a
  · subst hba
    obtain rfl := (h.back m b hb).number h.was_held.1
    rcases hn rfl with hp | hdata
    · rw [h.pinned, hs.pinned_of_live h.was_held.1 hp] at hpin
      cases hpin
    · rw [h.data, hdata]
  · have hold := h.back m b hb
    have hmn : m ≠ n := by
      rintro rfl
      exact hba (hs.unique hold h.was_held.1)
    rw [h.heap b hba] at hacq hpin ⊢
    exact hm hmn b hold hacq hpin

end Releases

/-- The state after a release, with the new list. -/
private def released (s : Bcache) (a : ℕ) (f : Block → Block) (head freed : List ℕ) : Bcache :=
  { s.setBlock a f with head := head, freed := freed }

private theorem Wf.releases (hs : s.Wf) (ha : s.Held n a) {f : Block → Block} (head freed : List ℕ)
    (hf : (f (s.heap a)).blockNo = n ∧ (f (s.heap a)).acquired = false ∧
      (f (s.heap a)).pinned = (s.heap a).pinned ∧
      (f (s.heap a)).lock = (s.heap a).lock.post ∧
      (f (s.heap a)).valid = (s.heap a).valid ∧ (f (s.heap a)).data = (s.heap a).data)
    (hhead : head = a :: s.head.erase a ∧ freed = s.freed ∨
      head = s.head.erase a ∧ (s.heap a).pinned = false ∧ freed = a :: s.freed) :
    s.Releases n a (s.released a f head freed) := by
  obtain ⟨hno, hacq, hpin, hlock, hvalid, hdata⟩ := hf
  set t := s.released a f head freed with ht
  have hself : t.heap a = f (s.heap a) := by simp [ht, released, setBlock]
  have hne : ∀ b, b ≠ a → t.heap b = s.heap b := fun b hb => by simp [ht, released, setBlock, hb]
  have hkey : ∀ b, (t.heap b).blockNo = (s.heap b).blockNo ∧
      (t.heap b).valid = (s.heap b).valid := by
    intro b
    by_cases hba : b = a
    · rw [hba, hself, hno, ha.1.2.2]
      exact ⟨rfl, hvalid⟩
    · rw [hne b hba]
      exact ⟨rfl, rfl⟩
  have hsub : ∀ b ∈ t.head, b ∈ s.head := by
    intro b hb
    rcases hhead with ⟨hh, -⟩ | ⟨hh, -⟩
    · rcases List.mem_cons.mp (show b ∈ a :: s.head.erase a from hh ▸ hb) with rfl | hb
      · exact ha.1.1
      · exact List.mem_of_mem_erase hb
    · exact List.mem_of_mem_erase (show b ∈ s.head.erase a from hh ▸ hb)
  have hback : ∀ m b, t.Live m b → s.Live m b := by
    rintro m b ⟨hmem, hv, hn⟩
    exact ⟨hsub b hmem, (hkey b).2 ▸ hv, (hkey b).1 ▸ hn⟩
  -- the lookup of another number does not see the move
  have hfind : ∀ m, m ≠ n → t.findBlock m = s.findBlock m := by
    intro m hmn
    have hkeys : t.findBlock m = findKey (fun b => (s.heap b).blockNo) m t.head :=
      findKey_congr fun b _ => (hkey b).1
    have hne' : (s.heap a).blockNo ≠ m := fun h => hmn (h ▸ ha.1.2.2)
    rw [hkeys]
    rcases hhead with ⟨hh, -⟩ | ⟨hh, -⟩
    · show findKey _ m head = _
      rw [hh, findKey_moveToFront, if_neg hne']
      rfl
    · show findKey _ m head = _
      rw [hh, findKey_erase (b := a) hne']
      rfl
  have hfindn : head = a :: s.head.erase a → t.findBlock n = some a := by
    intro hh
    have hkeys : t.findBlock n = findKey (fun b => (s.heap b).blockNo) n t.head :=
      findKey_congr fun b _ => (hkey b).1
    rw [hkeys]
    show findKey _ n head = _
    rw [hh, findKey_moveToFront, if_pos ha.1.2.2]
  have hgone : head = s.head.erase a → ∀ c, ¬ t.Live n c := by
    rintro hh c hc
    obtain rfl := hs.unique (hback n c hc) ha.1
    exact absurd (show c ∈ s.head.erase c from hh ▸ hc.1) hs.nodup.not_mem_erase
  refine
    { wf := ?_, header := rfl, log := rfl, device := rfl, trace := rfl, was_held := ha, heap := hne
      data := by rw [hself, hdata], pinned := by rw [hself, hpin], acquired := by rw [hself, hacq]
      back := hback, keep := fun m b hb => ?_ }
  · refine ⟨?_, fun b hb => hs.lt_brk b (hsub b hb), fun m b hb => ?_, fun b hb hflag => ?_,
      fun b => ?_, fun b hb => ?_⟩
    · rcases hhead with ⟨hh, -⟩ | ⟨hh, -⟩
      · show head.Nodup
        rw [hh]
        exact List.nodup_cons.mpr ⟨hs.nodup.not_mem_erase, hs.nodup.erase a⟩
      · show head.Nodup
        rw [hh]
        exact hs.nodup.erase a
    · by_cases hmn : m = n
      · subst hmn
        obtain rfl := hs.unique (hback m b hb) ha.1
        rcases hhead with ⟨hh, -⟩ | ⟨hh, -⟩
        · exact hfindn hh
        · exact absurd hb (hgone hh b)
      · rw [hfind m hmn]
        exact hs.findBlock m b (hback m b hb)
    · rw [(hkey b).2]
      by_cases hba : b = a
      · rw [hba]
        exact ha.1.2.1
      · rw [hne b hba] at hflag
        exact hs.valid b (hsub b hb) hflag
    · by_cases hba : b = a
      · have hzero := hs.lock a
        rw [ha.2] at hzero
        rw [hba, hself, hlock, hacq, hzero]
        rfl
      · rw [hne b hba]
        exact hs.lock b
    · rcases hhead with ⟨-, hfreed⟩ | ⟨hh, -, hfreed⟩
      · have hold := hs.freed b (show b ∈ s.freed from hfreed ▸ hb)
        exact ⟨hold.1, fun hbm => hold.2 (hsub b hbm)⟩
      · rcases List.mem_cons.mp (show b ∈ a :: s.freed from hfreed ▸ hb) with rfl | hb
        · refine ⟨hs.lt_brk b ha.1.1, fun hbm => ?_⟩
          exact absurd (show b ∈ s.head.erase b from hh ▸ hbm) hs.nodup.not_mem_erase
        · exact ⟨(hs.freed b hb).1, fun hbm => (hs.freed b hb).2 (hsub b hbm)⟩
  · by_cases hmem : b ∈ t.head
    · exact .inl ⟨hmem, (hkey b).2.trans hb.2.1, (hkey b).1.trans hb.2.2⟩
    · rcases hhead with ⟨hh, -⟩ | ⟨hh, hunpinned, -⟩
      · refine absurd (show b ∈ head from ?_) hmem
        rw [hh]
        by_cases hba : b = a
        · exact hba ▸ List.mem_cons_self
        · exact List.mem_cons_of_mem _ ((List.mem_erase_of_ne hba).mpr hb.1)
      · have hba : b = a := by
          by_contra hba
          exact hmem (show b ∈ head from hh ▸ (List.mem_erase_of_ne hba).mpr hb.1)
        subst hba
        obtain rfl := hb.number ha.1
        exact .inr ⟨rfl, hgone hh, hunpinned⟩

/-- **`cache_release`.**  It returns, for a block that the caller holds. -/
theorem wp_cacheRelease (hs : s.Wf) (ha : s.Held n a) {E : Fault → Prop} :
    wp (cacheRelease a) (fun _ t => s.Releases n a t) E s := by
  simp only [cacheRelease, releaseSleeplock, wp_bind, wp_modify, releaseSection]
  have hf : ∀ f : Block → Block, f = (fun b => { b with lock := b.lock.post, acquired := false }) →
      (f (s.heap a)).blockNo = n ∧ (f (s.heap a)).acquired = false ∧
      (f (s.heap a)).pinned = (s.heap a).pinned ∧
      (f (s.heap a)).lock = (s.heap a).lock.post ∧
      (f (s.heap a)).valid = (s.heap a).valid ∧ (f (s.heap a)).data = (s.heap a).data := by
    rintro f rfl
    exact ⟨ha.1.2.2, rfl, rfl, rfl, rfl, rfl⟩
  split
  · rename_i hfree
    have hrel := hs.releases ha (s.head.erase a) (a :: s.freed) (hf _ rfl)
      (.inr ⟨rfl, (by simpa [setBlock] using hfree : _ ∧ _).1, rfl⟩)
    simpa [released, setBlock] using hrel
  · have hrel := hs.releases ha (a :: s.head.erase a) s.freed (hf _ rfl)
      (.inl ⟨rfl, rfl⟩)
    simpa [released, setBlock] using hrel

/-! ### Assignments to a buffer -/

/-- An assignment that keeps the number and the valid flag of a buffer keeps
what is live. -/
theorem live_setBlock {f : Block → Block} (hno : (f (s.heap a)).blockNo = (s.heap a).blockNo)
    (hvalid : (f (s.heap a)).valid = (s.heap a).valid) :
    (s.setBlock a f).Live m b ↔ s.Live m b := by
  by_cases hba : b = a
  · subst hba
    simp [Live, setBlock, hno, hvalid]
  · simp [Live, setBlock, hba]

theorem held_setBlock {f : Block → Block} (hno : (f (s.heap a)).blockNo = (s.heap a).blockNo)
    (hvalid : (f (s.heap a)).valid = (s.heap a).valid)
    (hacq : (f (s.heap a)).acquired = (s.heap a).acquired) :
    (s.setBlock a f).Held m b ↔ s.Held m b := by
  refine and_congr (live_setBlock hno hvalid) ?_
  by_cases hba : b = a
  · subst hba
    simp [setBlock, hacq]
  · simp [setBlock, hba]

theorem heap_setBlock_ne {f : Block → Block} (hba : b ≠ a) :
    (s.setBlock a f).heap b = s.heap b := by
  simp [setBlock, hba]

@[simp] theorem heap_setBlock_self {f : Block → Block} :
    (s.setBlock a f).heap a = f (s.heap a) := by
  simp [setBlock]

/-- Pinning, unpinning or storing data keeps the invariant. -/
theorem Wf.setBlock (hs : s.Wf) {f : Block → Block}
    (hno : (f (s.heap a)).blockNo = (s.heap a).blockNo)
    (hvalid : (f (s.heap a)).valid = (s.heap a).valid)
    (hacq : (f (s.heap a)).acquired = (s.heap a).acquired)
    (hlock : (f (s.heap a)).lock = (s.heap a).lock)
    (hpin : (f (s.heap a)).pinned = true → (s.heap a).valid = true) : (s.setBlock a f).Wf := by
  have hkey : ∀ b, ((s.setBlock a f).heap b).blockNo = (s.heap b).blockNo := by
    intro b
    by_cases hba : b = a
    · rw [hba, heap_setBlock_self, hno]
    · rw [heap_setBlock_ne hba]
  refine ⟨hs.nodup, hs.lt_brk, fun m b hb => ?_, fun b hb hflag => ?_, fun b => ?_, hs.freed⟩
  · have hfind : (s.setBlock a f).findBlock m = s.findBlock m := findKey_congr fun b _ => hkey b
    rw [hfind]
    exact hs.findBlock m b ((live_setBlock hno hvalid).mp hb)
  · by_cases hba : b = a
    · subst hba
      rw [heap_setBlock_self] at hflag ⊢
      rw [hvalid]
      rcases hflag with hflag | hflag
      · exact hs.valid b hb (.inl (hacq ▸ hflag))
      · exact hpin hflag
    · rw [heap_setBlock_ne hba] at hflag ⊢
      exact hs.valid b hb hflag
  · by_cases hba : b = a
    · subst hba
      rw [heap_setBlock_self, hlock, hacq]
      exact hs.lock b
    · rw [heap_setBlock_ne hba]
      exact hs.lock b

/-- The logged branch of `cache_sync`: the block is pinned and logged, or the call
fails. -/
theorem wp_cacheSync_some {Q : Option ℕ → Bcache → Prop} {E : Fault → Prop} {rm : ℕ}
    (hE : ∀ e, s.header.absorb rm (s.heap a).blockNo = .error e → E e)
    (hQ : ∀ rm' header, s.header.absorb rm (s.heap a).blockNo = .ok (rm', header) →
      Q (some rm') { s.setBlock a fun b => { b with pinned := true } with header := header }) :
    wp (cacheSync (some rm) a) Q E s := by
  have hno : ((s.setBlock a fun b => { b with pinned := true }).heap a).blockNo
      = (s.heap a).blockNo := by
    rw [heap_setBlock_self]
  have hhdr : (s.setBlock a fun b => { b with pinned := true }).header = s.header := rfl
  simp only [cacheSync, wp_bind, wp_modify, wp_get, hno, hhdr]
  cases habs : s.header.absorb rm (s.heap a).blockNo with
  | error e => exact hE e habs
  | ok r => exact hQ r.1 r.2 habs

end Bcache
end OsLab
