/-
What an operation may sync.

`historySystem` is `logSystem` with a history: the blocks synced since the last
commit and those that each operation has synced.  An entry of the header is paid for
by the operation that synced its block first, so the entries that an operation has
paid for are at most its blocks (`LogHistory.Inv`).

* `log_admits` — in every reachable state the reservations fit in the header, it has
  every block synced since the last commit once, and an operation with at most
  `OP_MAX_NUM_BLOCKS` distinct blocks syncs without a panic.
-/
import OsLab.Fs.LogAdmission

namespace OsLab

/-- The log and what has been synced. -/
structure LogHistory extends LogState where
  /-- the blocks synced since the last commit -/
  since : Finset ℕ
  /-- the blocks that an operation has synced -/
  syncedBy : ℕ → Finset ℕ

namespace LogHistory

/-- A section under `loglock`, with the history. -/
def step (s : LogHistory) (l : LogAction) : Option LogHistory :=
  (s.toLogState.step l).map fun t =>
    match l with
    | .beginOp c => ⟨t, s.since, Function.update s.syncedBy c ∅⟩
    | .sync c n => ⟨t, insert n s.since, Function.update s.syncedBy c (insert n (s.syncedBy c))⟩
    | .endOp _ => ⟨t, s.since, s.syncedBy⟩
    | .commit => ⟨t, ∅, s.syncedBy⟩

end LogHistory

/-- Any number of operations over an empty log, with the history. -/
def historySystem : System LogHistory LogAction where
  init s := logSystem.init s.toLogState ∧ s.since = ∅
  step := LogHistory.step

namespace LogHistory

variable {s t : LogHistory} {l : LogAction} {c n : ℕ}

/-- What the history says about the header. -/
structure Inv (s : LogHistory) : Prop where
  log : s.toLogState.Inv Set.univ
  logged : ∀ n, n ∈ s.since ↔ n ∈ s.header.logged
  /-- running operations started after the last commit -/
  sub : ∀ c ∈ s.running, s.syncedBy c ⊆ s.since
  /-- the entries that an operation has taken are at most its blocks -/
  paid : ∀ c ∈ s.running, opMaxNumBlocks ≤ s.rm c + (s.syncedBy c).card

theorem inv_init (h : historySystem.init s) : s.Inv := by
  obtain ⟨hinit, hsince⟩ := h
  have hlog : s.header.logged = [] := by simp [LogHeader.logged, hinit.1]
  refine ⟨LogState.inv_init hinit, by simp [hsince, hlog], ?_, ?_⟩
  · simp [hinit.2.2]
  · simp [hinit.2.2]

theorem inv_beginOp (hi : s.Inv) (hs : s.step (.beginOp c) = some t) : t.Inv := by
  obtain ⟨u, hu, rfl⟩ := Option.map_eq_some_iff.mp hs
  have hinv := LogState.inv_step (l := .beginOp c) hi.log trivial hu
  obtain ⟨-, -, -, rfl⟩ := LogState.step_beginOp hu
  refine ⟨hinv, hi.logged, fun d hd => ?_, fun d hd => ?_⟩
  · by_cases hdc : d = c
    · subst hdc
      show Function.update s.syncedBy d ∅ d ⊆ s.since
      rw [Function.update_self]
      exact Finset.empty_subset _
    · show Function.update s.syncedBy c ∅ d ⊆ s.since
      rw [Function.update_of_ne hdc]
      exact hi.sub d ((Finset.mem_insert.mp hd).resolve_left hdc)
  · by_cases hdc : d = c
    · subst hdc
      show opMaxNumBlocks ≤ Function.update s.rm d opMaxNumBlocks d + _
      rw [Function.update_self]
      exact Nat.le_add_right _ _
    · show opMaxNumBlocks ≤ Function.update s.rm c opMaxNumBlocks d
        + (Function.update s.syncedBy c ∅ d).card
      rw [Function.update_of_ne hdc, Function.update_of_ne hdc]
      exact hi.paid d ((Finset.mem_insert.mp hd).resolve_left hdc)

theorem inv_sync (hi : s.Inv) (hs : s.step (.sync c n) = some t) : t.Inv := by
  obtain ⟨u, hu, rfl⟩ := Option.map_eq_some_iff.mp hs
  have hinv := LogState.inv_step (l := .sync c n) hi.log (Set.mem_univ n) hu
  obtain ⟨hc, rm, header, habs, rfl⟩ := LogState.step_sync hu
  have hsub : ∀ d ∈ s.running,
      Function.update s.syncedBy c (insert n (s.syncedBy c)) d ⊆ insert n s.since := by
    intro d hd
    by_cases hdc : d = c
    · rw [hdc, Function.update_self]
      exact Finset.insert_subset_insert n (hi.sub c hc)
    · rw [Function.update_of_ne hdc]
      exact (hi.sub d hd).trans (Finset.subset_insert n s.since)
  -- the other operations keep their entries and their blocks
  have hpaid : opMaxNumBlocks ≤ rm + (insert n (s.syncedBy c)).card → ∀ d ∈ s.running,
      opMaxNumBlocks ≤ Function.update s.rm c rm d
        + (Function.update s.syncedBy c (insert n (s.syncedBy c)) d).card := by
    intro hrm d hd
    by_cases hdc : d = c
    · rw [hdc, Function.update_self, Function.update_self]
      exact hrm
    · rw [Function.update_of_ne hdc, Function.update_of_ne hdc]
      exact hi.paid d hd
  have hold := hi.paid c hc
  rcases LogHeader.absorb_cases habs with ⟨hmem, rfl, -, hlog⟩ | ⟨hnot, -, hpos, rfl, -, hlog⟩
  · refine ⟨hinv, fun m => ?_, hsub, hpaid ?_⟩
    · rw [hlog, Finset.mem_insert, hi.logged]
      exact ⟨fun h => h.elim (fun hmn => hmn ▸ hmem) id, .inr⟩
    · have := Finset.card_le_card (Finset.subset_insert n (s.syncedBy c))
      omega
  · refine ⟨hinv, fun m => ?_, hsub, hpaid ?_⟩
    · rw [hlog, Finset.mem_insert, hi.logged, List.mem_append, List.mem_singleton]
      exact or_comm
    · have hfresh : n ∉ s.syncedBy c := fun hn => hnot ((hi.logged n).mp (hi.sub c hc hn))
      rw [Finset.card_insert_of_notMem hfresh]
      omega

theorem inv_endOp (hi : s.Inv) (hs : s.step (.endOp c) = some t) : t.Inv := by
  obtain ⟨u, hu, rfl⟩ := Option.map_eq_some_iff.mp hs
  have hinv := LogState.inv_step (l := .endOp c) hi.log trivial hu
  obtain ⟨-, -, rfl⟩ := LogState.step_endOp hu
  exact ⟨hinv, hi.logged, fun d hd => hi.sub d (Finset.mem_of_mem_erase hd),
    fun d hd => hi.paid d (Finset.mem_of_mem_erase hd)⟩

theorem inv_commit (hi : s.Inv) (hs : s.step .commit = some t) : t.Inv := by
  obtain ⟨u, hu, rfl⟩ := Option.map_eq_some_iff.mp hs
  have hinv := LogState.inv_step (l := .commit) hi.log trivial hu
  simp only [LogState.step] at hu
  split at hu
  · rename_i hcom
    cases hu
    have hrun : s.running = ∅ := hi.log.committing hcom
    refine ⟨hinv, by simp, ?_, ?_⟩
    · simp [hrun]
    · simp [hrun]
  · cases hu

theorem inv_step (hi : s.Inv) (hs : s.step l = some t) : t.Inv := by
  cases l with
  | beginOp c => exact inv_beginOp hi hs
  | sync c n => exact inv_sync hi hs
  | endOp c => exact inv_endOp hi hs
  | commit => exact inv_commit hi hs

theorem inv_of_reachable (h : historySystem.Reachable (fun _ _ => True) s) : s.Inv :=
  h.induction (fun _ => inv_init) fun _ _ _ hi _ hs => inv_step hi hs

/-- A sync that the operation can pay for, or that is absorbed, does not panic and
stays inside `block_no`. -/
theorem Inv.sync_returns (hi : s.Inv) (hc : c ∈ s.running)
    (h : n ∈ s.header.logged ∨ 0 < s.rm c) :
    s.header.logged.idxOf n < logMaxSize ∧ ∃ r, s.header.absorb (s.rm c) n = .ok r := by
  have hbudget := hi.log.budget
  have hle : s.header.numBlocks ≤ logMaxSize := by omega
  by_cases hn : n ∈ s.header.logged
  · have hidx := List.idxOf_lt_length_of_mem hn
    rw [LogHeader.length_logged] at hidx
    exact ⟨by omega, _, LogHeader.absorb_logged hn hle⟩
  · have hrm := h.resolve_left hn
    have hsum : s.rm c ≤ ∑ d ∈ s.running, s.rm d :=
      Finset.single_le_sum (f := s.rm) (fun _ _ => Nat.zero_le _) hc
    have hidx : s.header.logged.idxOf n = s.header.numBlocks := by
      rw [List.idxOf_eq_length hn, LogHeader.length_logged]
    exact ⟨by omega, _, LogHeader.absorb_fresh hn (by omega) hrm⟩

/-- The promise of the log to its operations. -/
structure Admits (s : LogHistory) : Prop where
  budget : s.header.numBlocks + ∑ c ∈ s.running, s.rm c ≤ logMaxSize
  nodup : s.header.logged.Nodup
  since : ∀ n ∈ s.since, n ∈ s.header.logged
  /-- the entry that a sync which does not panic writes -/
  inBounds : ∀ c ∈ s.running, ∀ n, n ∈ s.header.logged ∨ 0 < s.rm c →
    s.header.logged.idxOf n < logMaxSize
  sync : ∀ c ∈ s.running, ∀ n, (insert n (s.syncedBy c)).card ≤ opMaxNumBlocks →
    ∃ r, s.header.absorb (s.rm c) n = .ok r

end LogHistory

/-- **The log keeps its promise** in every interleaving of `cache_begin_op`,
`cache_sync` and `cache_end_op`. -/
theorem log_admits (s : LogHistory) (h : historySystem.Reachable (fun _ _ => True) s) :
    s.Admits := by
  have hi := LogHistory.inv_of_reachable h
  refine ⟨hi.log.budget, hi.log.nodup, fun n hn => (hi.logged n).mp hn,
    fun c hc n hn => (hi.sync_returns hc hn).1, fun c hc n hcard => (hi.sync_returns hc ?_).2⟩
  by_cases hn : n ∈ s.header.logged
  · exact .inl hn
  · -- the block is new, so the operation has synced fewer than it may
    have hfresh : n ∉ s.syncedBy c := fun hs => hn ((hi.logged n).mp (hi.sub c hc hs))
    rw [Finset.card_insert_of_notMem hfresh] at hcard
    have := hi.paid c hc
    exact .inr (by omega)

/-- Two operations that have synced a common block. -/
theorem log_admits_two : ∃ s : LogHistory, s.since = {500, 501} ∧ s.running = {0, 1} ∧ s.Admits := by
  have hrun : (historySystem.exec (fun _ _ => True)
      ⟨⟨⟨0, fun _ => 0⟩, ⟨false, 0⟩, ∅, fun _ => 0⟩, ∅, fun _ => ∅⟩
      [.beginOp 0, .sync 0 500, .beginOp 1, .sync 1 500, .sync 1 501]).map
      (fun s => (s.since, s.running)) = some ({500, 501}, {0, 1}) := by
    decide
  obtain ⟨s, hs, heq⟩ := Option.map_eq_some_iff.mp hrun
  exact ⟨s, (Prod.mk.inj heq).1, (Prod.mk.inj heq).2,
    log_admits s ⟨_, ⟨⟨rfl, rfl, rfl⟩, rfl⟩, System.leads_of_exec hs⟩⟩

end OsLab
