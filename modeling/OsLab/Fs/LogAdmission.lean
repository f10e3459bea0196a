/-
How many blocks the log can come to hold (`cache_begin_op`, `cache_sync`,
`cache_end_op`).

`logSystem` interleaves the sections under `loglock` of any number of
operations: admission, synced blocks, ended operations and commits.  The
admission test of `cache_begin_op` keeps

  `header.num_blocks + Σ ctx.rm ≤ LOG_MAX_SIZE`

over the running operations (`numBlocks_add_sum_rm_le`).  It compares with the
compile-time `LOG_MAX_SIZE` only.  The room that the super block gives is
`num_log_blocks - 1` blocks, and runs fill the header up to `LOG_MAX_SIZE`
whatever that room is (`exists_reachable_numBlocks`), so commits stay inside
the log area exactly when it holds `LOG_MAX_SIZE` blocks or fewer distinct
blocks are ever synced (`log_fits_iff`).
-/
import OsLab.Lib.System
import OsLab.Fs.Cache
import Mathlib.Algebra.BigOperators.Group.Finset.Basic
import Mathlib.Algebra.Order.BigOperators.Group.Finset
import Mathlib.Order.Interval.Finset.Nat
import Mathlib.Tactic.Ring

namespace OsLab

/-! ### The log header under `cache_sync` -/

/-- What a `cache_sync` that does not panic does to the header: the block was
already logged and nothing changes, or it takes the next free entry. -/
theorem LogHeader.absorb_cases {h h' : LogHeader} {rm rm' n : ℕ}
    (hs : h.absorb rm n = .ok (rm', h')) :
    (n ∈ h.logged ∧ rm' = rm ∧ h'.numBlocks = h.numBlocks ∧ h'.logged = h.logged) ∨
    (n ∉ h.logged ∧ h.numBlocks < logMaxSize ∧ 0 < rm ∧ rm' = rm - 1 ∧
      h'.numBlocks = h.numBlocks + 1 ∧ h'.logged = h.logged ++ [n]) := by
  simp only [absorb] at hs
  split at hs
  · rename_i hi
    split at hs
    · rename_i heq
      split at hs
      · cases hs
      · rename_i hrm
        obtain ⟨rfl, rfl⟩ : rm - 1 = rm' ∧
            { h.setEntry (h.logged.idxOf n) n with numBlocks := h.numBlocks + 1 } = h' := by
          simpa using hs
        have hnot : n ∉ h.logged := by
          intro hmem
          have := List.idxOf_lt_length_of_mem hmem
          rw [length_logged] at this
          omega
        rw [heq] at hi ⊢
        exact .inr ⟨hnot, hi, Nat.pos_of_ne_zero hrm, rfl, rfl, logged_push h n hi⟩
    · rename_i hne
      obtain ⟨rfl, rfl⟩ : rm = rm' ∧ h.setEntry (h.logged.idxOf n) n = h' := by simpa using hs
      have hmem : n ∈ h.logged := by
        by_contra hnot
        exact hne (by rw [List.idxOf_eq_length hnot, length_logged])
      have hentry : h.entry (h.logged.idxOf n) = n := by
        rw [← getElem_logged h (List.idxOf_lt_length_of_mem hmem)]
        exact List.getElem_idxOf _
      refine .inl ⟨hmem, rfl, rfl, ?_⟩
      have hself := logged_setEntry_self h hi
      rw [hentry] at hself
      exact hself
  · cases hs

/-- A block that is not logged yet takes the next entry, as long as the operation
has one left and the array is not full. -/
theorem LogHeader.absorb_fresh {h : LogHeader} {rm n : ℕ} (hn : n ∉ h.logged)
    (hlt : h.numBlocks < logMaxSize) (hrm : 0 < rm) :
    h.absorb rm n = .ok (rm - 1, { h.setEntry h.numBlocks n with numBlocks := h.numBlocks + 1 }) := by
  have hidx : h.logged.idxOf n = h.numBlocks := by rw [List.idxOf_eq_length hn, length_logged]
  rw [absorb, hidx, if_pos hlt, if_pos rfl, if_neg (by omega)]

/-- A block that is logged already is absorbed. -/
theorem LogHeader.absorb_logged {h : LogHeader} {rm n : ℕ} (hn : n ∈ h.logged)
    (hle : h.numBlocks ≤ logMaxSize) :
    h.absorb rm n = .ok (rm, h.setEntry (h.logged.idxOf n) n) := by
  have hidx := List.idxOf_lt_length_of_mem hn
  rw [length_logged] at hidx
  rw [absorb, if_pos (by omega), if_neg (by omega)]

/-! ### Operations and the log -/

/-- The log and the contexts of the operations. -/
structure LogState where
  header : LogHeader
  log : Log
  /-- the operations between `cache_begin_op` and `cache_end_op` -/
  running : Finset ℕ
  /-- `ctx->rm` -/
  rm : ℕ → ℕ

/-- The sections under `loglock`. -/
inductive LogAction
  /-- the pass of `cache_begin_op` that admits operation `c` -/
  | beginOp (c : ℕ)
  /-- `cache_sync` of block number `n` by operation `c` -/
  | sync (c n : ℕ)
  /-- the first section of `cache_end_op` of operation `c` -/
  | endOp (c : ℕ)
  /-- the second one, which commits -/
  | commit

/-- The step of one section; `none` when it cannot be entered, would sleep or
panics. -/
def LogState.step (s : LogState) : LogAction → Option LogState
  | .beginOp c =>
    if c ∈ s.running then none
    else (s.log.beginSection s.header).map fun log =>
      { s with
        log := log
        running := insert c s.running
        rm := Function.update s.rm c opMaxNumBlocks }
  | .sync c n =>
    if c ∈ s.running then
      match s.header.absorb (s.rm c) n with
      | .ok (rm, header) => some { s with header := header, rm := Function.update s.rm c rm }
      | .error _ => none
    else none
  | .endOp c =>
    if c ∈ s.running then
      match s.log.endSection with
      | .ok (_, log) => some { s with log := log, running := s.running.erase c }
      | .error _ => none
    else none
  | .commit =>
    if s.log.committing then
      some { s with
        header := { s.header with numBlocks := 0 }
        log := { s.log with committing := false } }
    else none

/-- Any number of operations over an empty log. -/
def logSystem : System LogState LogAction where
  init s := s.header.numBlocks = 0 ∧ s.log = ⟨false, 0⟩ ∧ s.running = ∅
  step := LogState.step

/-- Every block an operation syncs is one of `blocks`. -/
def SyncsOnly (blocks : Set ℕ) (_ : LogState) : LogAction → Prop
  | .sync _ n => n ∈ blocks
  | _ => True

/-- The invariant of `logSystem` when only `blocks` are synced. -/
structure LogState.Inv (blocks : Set ℕ) (s : LogState) : Prop where
  outstanding : s.log.outstanding = s.running.card
  committing : s.log.committing = true → s.running = ∅
  rm_le : ∀ c ∈ s.running, s.rm c ≤ opMaxNumBlocks
  budget : s.header.numBlocks + ∑ c ∈ s.running, s.rm c ≤ logMaxSize
  nodup : s.header.logged.Nodup
  mem_blocks : ∀ n ∈ s.header.logged, n ∈ blocks

namespace LogState

variable {blocks : Set ℕ} {s s' : LogState} {c n : ℕ}

theorem inv_init (h : logSystem.init s) : s.Inv blocks := by
  obtain ⟨hn, hlog, hrun⟩ := h
  have hl : s.header.logged = [] := by simp [LogHeader.logged, hn]
  refine ⟨?_, ?_, ?_, ?_, ?_, ?_⟩ <;> simp [hn, hlog, hrun, hl]

/-- What the admission of an operation does. -/
theorem step_beginOp (h : s.step (.beginOp c) = some s') :
    c ∉ s.running ∧ s.log.committing = false ∧
      (s.header.numBlocks : ℤ) + (s.log.outstanding + 1) * opMaxNumBlocks ≤ logMaxSize ∧
      s' = { s with
        log := { s.log with outstanding := s.log.outstanding + 1 }
        running := insert c s.running
        rm := Function.update s.rm c opMaxNumBlocks } := by
  simp only [step] at h
  split at h
  · cases h
  · rename_i hc
    obtain ⟨log, hlog, rfl⟩ := Option.map_eq_some_iff.mp h
    simp only [Log.beginSection] at hlog
    split at hlog
    · cases hlog
    · rename_i hcom
      split at hlog
      · cases hlog
      · rename_i hle
        cases hlog
        exact ⟨hc, by simpa using hcom, by omega, rfl⟩

/-- What a sync by a running operation does. -/
theorem step_sync (h : s.step (.sync c n) = some s') :
    c ∈ s.running ∧ ∃ rm header, s.header.absorb (s.rm c) n = .ok (rm, header) ∧
      s' = { s with header := header, rm := Function.update s.rm c rm } := by
  simp only [step] at h
  split at h
  · rename_i hc
    split at h
    · rename_i rm header habs
      cases h
      exact ⟨hc, rm, header, habs, rfl⟩
    · cases h
  · cases h

/-- What the end of an operation does: the last one to end starts the commit. -/
theorem step_endOp (h : s.step (.endOp c) = some s') :
    c ∈ s.running ∧ s.log.committing = false ∧
      s' = { s with
        log := ⟨decide (s.log.outstanding - 1 = 0), s.log.outstanding - 1⟩
        running := s.running.erase c } := by
  simp only [step] at h
  split at h
  · rename_i hc
    simp only [Log.endSection] at h
    split at h
    · rename_i heq
      split at heq
      · cases heq
      · rename_i hcom
        split at heq
        · rename_i hlast
          cases heq
          cases h
          exact ⟨hc, by simpa using hcom, by simp [hlast]⟩
        · rename_i hlast
          cases heq
          cases h
          exact ⟨hc, by simpa using hcom, by simp [hlast, hcom]⟩
    · cases h
  · cases h

theorem inv_beginOp (hi : s.Inv blocks) (h : s.step (.beginOp c) = some s') : s'.Inv blocks := by
  obtain ⟨hc, hcom, hadm, rfl⟩ := step_beginOp h
  have hold : ∀ d ∈ s.running, Function.update s.rm c opMaxNumBlocks d = s.rm d := by
    rintro d hd
    have hdc : d ≠ c := by
      rintro rfl
      exact hc hd
    exact Function.update_of_ne hdc _ _
  have hcard : (s.running.card : ℤ) = s.log.outstanding := hi.outstanding.symm
  refine ⟨?_, ?_, ?_, ?_, hi.nodup, hi.mem_blocks⟩
  · simp [Finset.card_insert_of_notMem hc, hi.outstanding]
  · intro hcom'
    rw [hcom] at hcom'
    exact absurd hcom' (by decide)
  · intro d hd
    rcases Finset.mem_insert.mp hd with rfl | hd
    · simp
    · dsimp only
      rw [hold d hd]
      exact hi.rm_le d hd
  · -- the entries and reservations so far fit below `10 * outstanding`
    have hsum : s.running.sum s.rm ≤ s.running.card * opMaxNumBlocks := by
      simpa using Finset.sum_le_card_nsmul s.running s.rm opMaxNumBlocks hi.rm_le
    dsimp only
    rw [Finset.sum_insert hc, Function.update_self, Finset.sum_congr rfl hold]
    have hadm' : s.header.numBlocks + (s.running.card + 1) * opMaxNumBlocks ≤ logMaxSize := by
      rw [← hcard] at hadm
      exact_mod_cast hadm
    have hexpand : (s.running.card + 1) * opMaxNumBlocks
        = s.running.card * opMaxNumBlocks + opMaxNumBlocks := by ring
    omega

theorem inv_sync (hi : s.Inv blocks) (hn : n ∈ blocks) (h : s.step (.sync c n) = some s') :
    s'.Inv blocks := by
  obtain ⟨hc, rm, header, habs, rfl⟩ := step_sync h
  have hsplit := Finset.add_sum_erase s.running s.rm hc
  have hrest : ∀ d ∈ s.running.erase c, Function.update s.rm c rm d = s.rm d := fun d hd =>
    Function.update_of_ne (Finset.ne_of_mem_erase hd) _ _
  have hsum : ∑ d ∈ s.running, Function.update s.rm c rm d
      = rm + ∑ d ∈ s.running.erase c, s.rm d := by
    rw [← Finset.add_sum_erase s.running _ hc, Function.update_self, Finset.sum_congr rfl hrest]
  have hle : rm ≤ opMaxNumBlocks → ∀ d ∈ s.running,
      Function.update s.rm c rm d ≤ opMaxNumBlocks := by
    intro hrm d hd
    by_cases hdc : d = c
    · simpa [hdc] using hrm
    · rw [Function.update_of_ne hdc]
      exact hi.rm_le d hd
  have hb := hi.budget
  have hrmc := hi.rm_le c hc
  rcases LogHeader.absorb_cases habs with ⟨-, rfl, hnum, hlog⟩ | ⟨hnot, -, hpos, rfl, hnum, hlog⟩
  · exact ⟨hi.outstanding, hi.committing, hle hrmc, by rw [hsum, hnum]; omega,
      by rw [hlog]; exact hi.nodup, by rw [hlog]; exact hi.mem_blocks⟩
  · refine ⟨hi.outstanding, hi.committing, hle (by omega), ?_, ?_, ?_⟩
    · rw [hsum, hnum]
      omega
    · rw [hlog]
      exact List.nodup_append.mpr ⟨hi.nodup, by simp, by
        rintro a ha b hb rfl
        exact hnot (by simpa using (List.mem_singleton.mp hb) ▸ ha)⟩
    · intro m hm
      rw [hlog, List.mem_append, List.mem_singleton] at hm
      rcases hm with hm | rfl
      · exact hi.mem_blocks m hm
      · exact hn

theorem inv_endOp (hi : s.Inv blocks) (h : s.step (.endOp c) = some s') : s'.Inv blocks := by
  obtain ⟨hc, hcom, rfl⟩ := step_endOp h
  have hcard : (s.running.erase c).card + 1 = s.running.card :=
    Finset.card_erase_add_one hc
  refine ⟨?_, ?_, ?_, ?_, hi.nodup, hi.mem_blocks⟩
  · have := hi.outstanding
    simp only
    omega
  · intro hlast
    have hzero : s.log.outstanding - 1 = 0 := of_decide_eq_true hlast
    have hone := hi.outstanding
    have hcard0 : (s.running.erase c).card = 0 := by omega
    exact Finset.card_eq_zero.mp hcard0
  · exact fun d hd => hi.rm_le d (Finset.mem_of_mem_erase hd)
  · have hb := hi.budget
    have hsplit := Finset.add_sum_erase s.running s.rm hc
    simp only
    omega

theorem inv_commit (hi : s.Inv blocks) (h : s.step .commit = some s') : s'.Inv blocks := by
  simp only [step] at h
  split at h
  · cases h
    refine ⟨hi.outstanding, fun hcom => absurd hcom (by simp), hi.rm_le, ?_, by simp, by simp⟩
    have := hi.budget
    simp only
    omega
  · cases h

/-- Every section keeps the invariant. -/
theorem inv_step {l : LogAction} (hi : s.Inv blocks) (hl : SyncsOnly blocks s l)
    (h : s.step l = some s') : s'.Inv blocks := by
  cases l with
  | beginOp c => exact inv_beginOp hi h
  | sync c n => exact inv_sync hi hl h
  | endOp c => exact inv_endOp hi h
  | commit => exact inv_commit hi h

theorem inv_of_reachable (h : logSystem.Reachable (SyncsOnly blocks) s) : s.Inv blocks :=
  h.induction (fun _ => inv_init) fun _ _ _ => inv_step

/-- **The admission bound.**  The entries in the header and the entries that the
running operations may still take fit in `block_no`. -/
theorem numBlocks_add_sum_rm_le (h : logSystem.Reachable (SyncsOnly blocks) s) :
    s.header.numBlocks + ∑ c ∈ s.running, s.rm c ≤ logMaxSize := (inv_of_reachable h).budget

/-- The header never holds more entries than there are synced blocks. -/
theorem numBlocks_le {blocks : Finset ℕ} (h : logSystem.Reachable (SyncsOnly blocks) s) :
    s.header.numBlocks ≤ min logMaxSize blocks.card := by
  have hi := inv_of_reachable h
  have hcard : s.header.logged.toFinset.card = s.header.numBlocks := by
    rw [List.toFinset_card_of_nodup hi.nodup, LogHeader.length_logged]
  have hsub : s.header.logged.toFinset ⊆ blocks := fun n hn =>
    hi.mem_blocks n (List.mem_toFinset.mp hn)
  have hle := Finset.card_le_card hsub
  have hb := hi.budget
  rw [le_min_iff]
  omega

/-! ### Runs that fill the header -/

section Fill

variable {blocks : Finset ℕ}

/-- A running operation with an entry left can log one more block. -/
theorem exists_sync (h : logSystem.Reachable (SyncsOnly blocks) s) (hc : c ∈ s.running)
    (hrm : 0 < s.rm c) (hlt : s.header.numBlocks < min logMaxSize blocks.card) :
    ∃ t, logSystem.Reachable (SyncsOnly blocks) t ∧ t.header.numBlocks = s.header.numBlocks + 1 ∧
      t.running = s.running ∧ t.rm = Function.update s.rm c (s.rm c - 1) := by
  have hmax := (lt_min_iff.mp hlt).1
  -- some block is not logged yet
  obtain ⟨n, hn, hnot⟩ : ∃ n ∈ blocks, n ∉ s.header.logged.toFinset := by
    by_contra hall
    push Not at hall
    have hle := Finset.card_le_card (show blocks ⊆ s.header.logged.toFinset from hall)
    have := List.toFinset_card_le s.header.logged
    rw [LogHeader.length_logged] at this
    have := (lt_min_iff.mp hlt).2
    omega
  have habs := LogHeader.absorb_fresh (by simpa using hnot) hmax hrm
  have hstep : logSystem.step s (.sync c n) = some { s with
      header := { s.header.setEntry s.header.numBlocks n with
        numBlocks := s.header.numBlocks + 1 }
      rm := Function.update s.rm c (s.rm c - 1) } := by
    simp only [logSystem, step, if_pos hc, habs]
  exact ⟨_, h.step (l := .sync c n) hn hstep, rfl, rfl, rfl⟩

/-- It can log as many blocks as it has entries left. -/
theorem exists_syncs (h : logSystem.Reachable (SyncsOnly blocks) s) (hc : c ∈ s.running) {m : ℕ}
    (hrm : m ≤ s.rm c) (hle : s.header.numBlocks + m ≤ min logMaxSize blocks.card) :
    ∃ t, logSystem.Reachable (SyncsOnly blocks) t ∧ t.header.numBlocks = s.header.numBlocks + m ∧
      t.running = s.running ∧ t.rm = Function.update s.rm c (s.rm c - m) := by
  induction m with
  | zero => exact ⟨s, h, rfl, rfl, by simp⟩
  | succ m ih =>
    obtain ⟨t, ht, hnum, hrun, hrmt⟩ := ih (by omega) (by omega)
    have htc : t.rm c = s.rm c - m := by rw [hrmt, Function.update_self]
    obtain ⟨u, hu, hnum', hrun', hrmu⟩ :=
      exists_sync ht (hrun ▸ hc) (by omega) (by omega)
    refine ⟨u, hu, by omega, hrun'.trans hrun, ?_⟩
    rw [hrmu, hrmt, Function.update_idem, Function.update_self, Nat.sub_sub]

/-- An operation is admitted as long as the entries and ten for each running
operation and for itself fit. -/
theorem exists_beginOp (h : logSystem.Reachable (SyncsOnly blocks) s) (hc : c ∉ s.running)
    (hcom : s.log.committing = false)
    (hle : s.header.numBlocks + (s.running.card + 1) * opMaxNumBlocks ≤ logMaxSize) :
    ∃ t, logSystem.Reachable (SyncsOnly blocks) t ∧ t.header = s.header ∧
      t.log.committing = false ∧ t.running = insert c s.running ∧
      t.rm = Function.update s.rm c opMaxNumBlocks := by
  have hout := (inv_of_reachable h).outstanding
  have hadm : (s.header.numBlocks : ℤ) + (s.log.outstanding + 1) * opMaxNumBlocks ≤ logMaxSize := by
    rw [hout]
    exact_mod_cast hle
  have hstep : logSystem.step s (.beginOp c) = some { s with
      log := { s.log with outstanding := s.log.outstanding + 1 }
      running := insert c s.running
      rm := Function.update s.rm c opMaxNumBlocks } := by
    simp only [logSystem, step, if_neg hc, Log.beginSection, hcom, if_neg (not_lt.mpr hadm)]
    rfl
  exact ⟨_, h.step (l := .beginOp c) trivial hstep, rfl, hcom, rfl, rfl⟩

/-- While operation `0` is running without having logged anything, short
operations can leave any number of entries up to `LOG_MAX_SIZE - 20` behind. -/
theorem exists_entries_left (blocks : Finset ℕ) {k : ℕ} (hk : k + 20 ≤ logMaxSize + 1) (hcard : k ≤ blocks.card) :
    ∃ s, logSystem.Reachable (SyncsOnly blocks) s ∧ s.header.numBlocks = k ∧
      s.log.committing = false ∧ s.running = {0} ∧ s.rm 0 = opMaxNumBlocks := by
  induction k with
  | zero =>
    have hinit : logSystem.Reachable (SyncsOnly blocks)
        ⟨⟨0, fun _ => 0⟩, ⟨false, 0⟩, ∅, fun _ => 0⟩ := .of_init ⟨rfl, rfl, rfl⟩
    obtain ⟨t, ht, hhead, hcom, hrun, hrm⟩ :=
      exists_beginOp (c := 0) hinit (by simp) rfl (by decide)
    exact ⟨t, ht, by rw [hhead], hcom, by simpa using hrun, by rw [hrm, Function.update_self]⟩
  | succ k ih =>
    obtain ⟨s, hs, hnum, hcom, hrun, hrm⟩ := ih (by omega) (by omega)
    have hmax : logMaxSize = 63 := rfl
    -- operation `1` begins, logs one block and ends
    obtain ⟨t, ht, hhead, hcomt, hrunt, hrmt⟩ :=
      exists_beginOp (c := 1) hs (by simp [hrun]) hcom (by
        have hop : opMaxNumBlocks = 10 := rfl
        rw [hnum, hrun, Finset.card_singleton]
        omega)
    obtain ⟨u, hu, hnumu, hrunu, hrmu⟩ :=
      exists_sync (c := 1) ht (by simp [hrunt]) (by simp [hrmt]) (by
        rw [hhead, hnum, lt_min_iff]
        omega)
    have hiu := inv_of_reachable hu
    have hcardu : u.running.card = 2 := by
      rw [hrunu, hrunt, hrun]
      rfl
    have hout : u.log.outstanding = 2 := by
      rw [hiu.outstanding, hcardu]
      rfl
    have hcomu : u.log.committing = false := by
      by_contra hne
      have hempty := hiu.committing (by simpa using hne)
      rw [hempty] at hcardu
      exact absurd hcardu (by decide)
    have hend : u.step (.endOp 1) = some
        { u with log := ⟨false, 1⟩, running := u.running.erase 1 } := by
      simp [step, hrunu, hrunt, Log.endSection, hcomu, hout]
    refine ⟨_, hu.step (l := .endOp 1) trivial hend, ?_, rfl, ?_, ?_⟩
    · rw [hnumu, hhead, hnum]
    · show u.running.erase 1 = {0}
      rw [hrunu, hrunt, hrun]
      rfl
    · show u.rm 0 = opMaxNumBlocks
      rw [hrmu, Function.update_of_ne (by decide), hrmt, Function.update_of_ne (by decide), hrm]

/-- **The header can fill up.**  Whatever the super block says, runs over enough
blocks reach every number of entries up to `LOG_MAX_SIZE`. -/
theorem exists_reachable_numBlocks (blocks : Finset ℕ) {k : ℕ} (hk : k ≤ min logMaxSize blocks.card) :
    ∃ s, logSystem.Reachable (SyncsOnly blocks) s ∧ s.header.numBlocks = k := by
  have hmax : logMaxSize = 63 := rfl
  obtain ⟨hk63, hkcard⟩ := le_min_iff.mp hk
  by_cases hsmall : k ≤ 43
  · obtain ⟨s, hs, hnum, -⟩ := exists_entries_left blocks (k := k) (by omega) hkcard
    exact ⟨s, hs, hnum⟩
  · -- from 43 entries on, operations `1` and `0` log up to ten more each
    obtain ⟨s, hs, hnum, hcom, hrun, hrm⟩ :=
      exists_entries_left blocks (k := 43) (by omega) (by omega)
    obtain ⟨t, ht, hhead, -, hrunt, hrmt⟩ :=
      exists_beginOp (c := 1) hs (by simp [hrun]) hcom (by
        rw [hnum, hrun]
        decide)
    have hop : opMaxNumBlocks = 10 := rfl
    have hnumt : t.header.numBlocks = 43 := by rw [hhead, hnum]
    obtain ⟨u, hu, hnumu, hrunu, hrmu⟩ :=
      exists_syncs (c := 1) (m := min 10 (k - 43)) ht (by simp [hrunt])
        (by rw [hrmt, Function.update_self]; omega) (by omega)
    have hrm0 : u.rm 0 = opMaxNumBlocks := by
      rw [hrmu, Function.update_of_ne (by decide), hrmt, Function.update_of_ne (by decide), hrm]
    obtain ⟨v, hv, hnumv, -⟩ :=
      exists_syncs (c := 0) (m := k - 43 - min 10 (k - 43)) hu
        (by rw [hrunu, hrunt, hrun]; simp) (by rw [hrm0]; omega) (by omega)
    exact ⟨v, hv, by omega⟩

end Fill

end LogState

/-- **When the log area is large enough.**  For a super block whose log area is
followed by the inode area, the header never outgrows the log area, and the
blocks that the first loop of `commit` writes stay in it, exactly when the log area has room
for `LOG_MAX_SIZE` blocks or for all blocks that are ever synced. -/
theorem log_fits_iff (sb : SuperBlock) (blocks : Finset ℕ)
    (hlayout : sb.inodeStart = sb.logStart + sb.numLogBlocks) :
    (∀ s, logSystem.Reachable (SyncsOnly blocks) s →
      s.header.numBlocks ≤ sb.numLogBlocks - 1 ∧
      ∀ tail < s.header.numBlocks, sb.InLog (sb.logBlock tail) ∧ sb.logBlock tail < sb.inodeStart) ↔
    min logMaxSize blocks.card ≤ sb.numLogBlocks - 1 := by
  constructor
  · intro hfit
    obtain ⟨s, hs, hnum⟩ := LogState.exists_reachable_numBlocks blocks (le_refl _)
    rw [← hnum]
    exact (hfit s hs).1
  · intro hle s hs
    have hnum := (LogState.numBlocks_le hs).trans hle
    refine ⟨hnum, fun tail htail => ?_⟩
    rw [hlayout]
    simp only [SuperBlock.InLog, SuperBlock.logBlock]
    omega

/-- On the disk that `mkfs` makes, over 58 data blocks. -/
theorem log_fits_iff_mkfs :
    (∀ s, logSystem.Reachable (SyncsOnly (Finset.Ico 92 150 : Finset ℕ)) s →
      s.header.numBlocks ≤ SuperBlock.mkfs.numLogBlocks - 1 ∧
      ∀ tail < s.header.numBlocks, SuperBlock.mkfs.InLog (SuperBlock.mkfs.logBlock tail) ∧
        SuperBlock.mkfs.logBlock tail < SuperBlock.mkfs.inodeStart) ↔
    min logMaxSize (Finset.Ico 92 150).card ≤ SuperBlock.mkfs.numLogBlocks - 1 :=
  log_fits_iff SuperBlock.mkfs (Finset.Ico 92 150) (by decide)

/-- On the disk that `mkfs` makes the header can reach 63 entries over data
blocks, and the last of them is copied over the first inode block. -/
theorem mkfs_log_overflow :
    ∃ s, logSystem.Reachable (SyncsOnly (Finset.Ico 92 1000 : Finset ℕ)) s ∧
      ¬ s.header.numBlocks ≤ SuperBlock.mkfs.numLogBlocks - 1 ∧
      ∃ tail < s.header.numBlocks, SuperBlock.mkfs.logBlock tail = SuperBlock.mkfs.inodeStart := by
  obtain ⟨s, hs, hnum⟩ :=
    LogState.exists_reachable_numBlocks (Finset.Ico 92 1000) (k := 63)
      (by rw [Nat.card_Ico]; decide)
  refine ⟨s, hs, ?_, 62, ?_, rfl⟩
  · rw [hnum]
    decide
  · rw [hnum]
    decide

end OsLab
