/-
Who waits in `cache_begin_op` for `log.lock`.

A pass of `cache_begin_op` that is not admitted releases `loglock` and only then
sleeps on `log.lock`; the sections of `cache_end_op` that let somebody in broadcast
with `post_all_sem`.  `waitSystem` puts the semaphore next to the log of `logSystem`:

* `LogWaiters.InTime` — a thread comes to `acquire_sleeplock` before the broadcast
  that answers its pass;
* `waiters_woken` — a run leaves no sleeper behind exactly as long as all its
  threads do;
* `waiter_left` — the run in which one does not: the first credit of the lock is
  used up, and a commit finishes between the pass of a thread and its sleep.
-/
import OsLab.Fs.LogAdmission
import OsLab.Common.SemThreads

namespace OsLab

/-- The log, `log.lock`, and the threads that come from a pass of `cache_begin_op`
that was not admitted. -/
structure LogWaiters where
  state : LogState
  lock : SemState
  /-- has released `loglock` and not yet called `acquire_sleeplock` -/
  refused : ℕ → Bool

/-- The sections under `loglock`, and the waits for `log.lock`. -/
inductive WaiterStep
  /-- the pass of `cache_begin_op` up to the release of `loglock` -/
  | check (t : ℕ)
  /-- `acquire_sleeplock` up to the point where it returns or sleeps -/
  | wait (t : ℕ)
  /-- the rest of `acquire_sleeplock` -/
  | resume (t : ℕ)
  | sync (c n : ℕ)
  | endOp (c : ℕ)
  | commit

namespace LogWaiters

/-- `post_all_sem(&log.lock)` at the end of a section that leaves the log as `log`. -/
def broadcast (s : LogWaiters) (log : LogState) : Option LogWaiters :=
  s.lock.postAllSem.map fun r => { s with state := log, lock := r.2 }

/-- One section or wait; `none` when it cannot be taken or panics. -/
def step (s : LogWaiters) : WaiterStep → Option LogWaiters
  | .check t =>
    if t ∈ s.state.running ∨ s.refused t = true ∨ s.lock.pc t ≠ .outside then none
    else match s.state.step (.beginOp t) with
      | some log => some { s with state := log }
      | none => some { s with refused := Function.update s.refused t true }
  | .wait t =>
    if s.refused t = true then
      (s.lock.step (.wait t true)).map fun lock =>
        { s with lock := lock, refused := Function.update s.refused t false }
    else none
  | .resume t =>
    -- `ASSERT(acquire_sleeplock(0, &log.lock))`
    if s.lock.up t = true then (s.lock.step (.resume t)).map fun lock => { s with lock := lock }
    else none
  | .sync c n => (s.state.step (.sync c n)).map fun log => { s with state := log }
  | .endOp c =>
    -- `committing` was clear, so it is set now exactly when `do_commit` is
    (s.state.step (.endOp c)).bind fun log =>
      if log.log.committing then some { s with state := log } else s.broadcast log
  | .commit => (s.state.step .commit).bind s.broadcast

/-- A thread that sleeps will be woken: a commit or an operation is under way. -/
def NoneLeft (s : LogWaiters) : Prop :=
  ∀ t, s.lock.pc t = .asleep true → s.state.log.committing = true ∨ 0 < s.state.log.outstanding

/-- A thread comes to `acquire_sleeplock` while what it waits for is still under way,
or while the lock has its first credit. -/
def InTime (s : LogWaiters) : WaiterStep → Prop
  | .wait _ => s.state.log.committing = true ∨ 0 < s.state.log.outstanding ∨ 0 < s.lock.sem.val
  | _ => True

instance (s : LogWaiters) (l : WaiterStep) : Decidable (s.InTime l) := by
  unfold InTime
  split <;> infer_instance

end LogWaiters

/-- Any number of threads over an empty log, after `init_sleeplock(&log.lock)`. -/
def waitSystem : System LogWaiters WaiterStep where
  init s := logSystem.init s.state ∧ (semSystem 1).init s.lock ∧ ∀ t, s.refused t = false
  step := LogWaiters.step

namespace LogWaiters

variable {s s' : LogWaiters} {t : ℕ}

/-- The invariant of `waitSystem`. -/
structure Inv (s : LogWaiters) : Prop where
  log : s.state.Inv Set.univ
  lock : s.lock.Inv 1
  noneLeft : s.lock.sem.sleeplist ≠ [] →
    s.state.log.committing = true ∨ 0 < s.state.log.outstanding

theorem inv_init (h : waitSystem.init s) : s.Inv := by
  obtain ⟨hlog, hlock, -⟩ := h
  refine ⟨LogState.inv_init hlog, SemState.inv_init hlock (by decide), fun hne => ?_⟩
  rw [hlock.1] at hne
  exact absurd rfl hne

/-- Who sleeps is on the list. -/
theorem Inv.mem_sleeplist (h : s.Inv) (ht : s.lock.pc t = .asleep true) :
    t ∈ s.lock.sem.sleeplist := by
  by_contra hmem
  have hwoken := (h.lock.marked t (by simp [ht]) hmem).1
  rw [ht] at hwoken
  cases hwoken

theorem Inv.noneLeft' (h : s.Inv) : s.NoneLeft := fun _ ht =>
  h.noneLeft (List.ne_nil_of_mem (h.mem_sleeplist ht))

/-- A broadcast empties the list. -/
theorem broadcast_eq (h : s.Inv) {log : LogState} (hs : s.broadcast log = some s') :
    s'.state = log ∧ s'.lock.Inv 1 ∧ s'.lock.sem.sleeplist = [] := by
  obtain ⟨u, hu, hinv, hsem, -⟩ := SemState.postAllSem_eq h.lock
  rw [broadcast, hu] at hs
  cases hs
  exact ⟨rfl, hinv, by rw [hsem]⟩

/-- A section that ends with a broadcast. -/
theorem inv_broadcast (h : s.Inv) {log : LogState} (hlog : log.Inv Set.univ)
    (hs : s.broadcast log = some s') : s'.Inv := by
  obtain ⟨rfl, hlock, hnil⟩ := broadcast_eq h hs
  exact ⟨hlog, hlock, fun hne => absurd hnil hne⟩

theorem inv_check (h : s.Inv) (hs : s.step (.check t) = some s') : s'.Inv := by
  simp only [step] at hs
  split at hs
  · cases hs
  · split at hs
    · rename_i log hlog
      cases hs
      have hinv := LogState.inv_beginOp h.log hlog
      obtain ⟨-, -, -, rfl⟩ := LogState.step_beginOp hlog
      refine ⟨hinv, h.lock, fun _ => .inr ?_⟩
      -- the admitted operation is one of those outstanding
      have hcard := h.log.outstanding
      dsimp only
      omega
    · cases hs
      exact ⟨h.log, h.lock, h.noneLeft⟩

/-- What `acquire_sleeplock` does up to the point where it returns or sleeps. -/
theorem step_wait (hs : s.step (.wait t) = some s') :
    s.lock.pc t = .outside ∧ s'.state = s.state ∧ s'.lock = s.lock.wait t true := by
  simp only [step] at hs
  split at hs
  · simp only [SemState.step] at hs
    split at hs
    · rename_i hpc
      cases hs
      exact ⟨hpc, rfl, rfl⟩
    · cases hs
  · cases hs

/-- With the credit the thread does not sleep. -/
theorem inv_wait (h : s.Inv) (hin : s.InTime (.wait t)) (hs : s.step (.wait t) = some s') :
    s'.Inv := by
  obtain ⟨hpc, hstate, hlock⟩ := step_wait hs
  have hinv : (s.lock.wait t true).Inv 1 := SemState.inv_wait h.lock hpc
  refine ⟨hstate ▸ h.log, hlock ▸ hinv, fun hne => ?_⟩
  rw [hstate]
  rcases hin with hcom | hout | hval
  · exact .inl hcom
  · exact .inr hout
  · have hpos : 0 ≤ s.lock.sem.val - 1 := by omega
    have hnil : s'.lock.sem.sleeplist = [] := by
      rw [hlock, SemState.wait, Semaphore.wait, if_pos hpos]
      exact h.lock.sleeplist_eq_nil (by omega)
    exact absurd hnil hne

/-- Without it and with nothing under way, nobody will wake the thread. -/
theorem not_noneLeft_of_late (hin : ¬ s.InTime (.wait t)) (hs : s.step (.wait t) = some s') :
    ¬ s'.NoneLeft := by
  obtain ⟨-, hstate, hlock⟩ := step_wait hs
  simp only [InTime, not_or] at hin
  have hneg : ¬ 0 ≤ s.lock.sem.val - 1 := by omega
  have hpc : s'.lock.pc t = .asleep true := by
    rw [hlock, SemState.wait, Semaphore.wait, if_neg hneg]
    exact Function.update_self _ _ _
  intro hnone
  rcases hnone t hpc with hcom | hout
  · exact hin.1 (hstate ▸ hcom)
  · exact hin.2.1 (hstate ▸ hout)

theorem inv_resume (h : s.Inv) (hs : s.step (.resume t) = some s') : s'.Inv := by
  simp only [step] at hs
  split at hs
  · rename_i hup
    obtain ⟨lock, hlock, rfl⟩ := Option.map_eq_some_iff.mp hs
    have hinv := SemState.inv_step h.lock hlock
    refine ⟨h.log, hinv, fun hne => h.noneLeft ?_⟩
    -- a thread that has been marked leaves the list as it is
    simp only [SemState.step] at hlock
    split at hlock
    · rw [SemState.resume, if_pos hup] at hlock
      cases hlock
      exact hne
    · cases hlock
  · cases hs

theorem inv_sync {c n : ℕ} (h : s.Inv) (hs : s.step (.sync c n) = some s') : s'.Inv := by
  obtain ⟨log, hlog, rfl⟩ := Option.map_eq_some_iff.mp hs
  have hinv := LogState.inv_sync h.log (Set.mem_univ n) hlog
  obtain ⟨-, rm, header, -, rfl⟩ := LogState.step_sync hlog
  exact ⟨hinv, h.lock, h.noneLeft⟩

theorem inv_endOp {c : ℕ} (h : s.Inv) (hs : s.step (.endOp c) = some s') : s'.Inv := by
  obtain ⟨log, hlog, hs⟩ := Option.bind_eq_some_iff.mp hs
  have hinv := LogState.inv_endOp h.log hlog
  split at hs
  · rename_i hcom
    cases hs
    exact ⟨hinv, h.lock, fun _ => .inl hcom⟩
  · exact inv_broadcast h hinv hs

theorem inv_commit (h : s.Inv) (hs : s.step .commit = some s') : s'.Inv := by
  obtain ⟨log, hlog, hs⟩ := Option.bind_eq_some_iff.mp hs
  exact inv_broadcast h (LogState.inv_commit h.log hlog) hs

/-- Every step in time keeps the invariant. -/
theorem inv_step {l : WaiterStep} (h : s.Inv) (hin : s.InTime l) (hs : s.step l = some s') :
    s'.Inv := by
  cases l with
  | check t => exact inv_check h hs
  | wait t => exact inv_wait h hin hs
  | resume t => exact inv_resume h hs
  | sync c n => exact inv_sync h hs
  | endOp c => exact inv_endOp h hs
  | commit => exact inv_commit h hs

theorem inv_of_reachable (h : waitSystem.Reachable InTime s) : s.Inv :=
  h.induction (fun _ => inv_init) fun _ _ _ => inv_step

/-- The broadcasts of `cache_end_op` leave nobody asleep: that of an operation which is
not the last one, and that of the commit. -/
theorem no_sleeper_of_broadcast {l : WaiterStep} (h : s.Inv) (hs : s.step l = some s')
    (hl : l = .commit ∨ ∃ c, l = .endOp c ∧ s'.state.log.committing = false) (t : ℕ) :
    s'.lock.pc t ≠ .asleep true := by
  have hwoken : ∀ {log : LogState}, log.Inv Set.univ → s.broadcast log = some s' →
      s'.lock.pc t ≠ .asleep true := by
    intro log hlog hb ht
    obtain ⟨-, -, hnil⟩ := broadcast_eq h hb
    exact List.ne_nil_of_mem ((inv_broadcast h hlog hb).mem_sleeplist ht) hnil
  rcases hl with rfl | ⟨c, rfl, hcom⟩
  · obtain ⟨log, hlog, hs⟩ := Option.bind_eq_some_iff.mp hs
    exact hwoken (LogState.inv_commit h.log hlog) hs
  · obtain ⟨log, hlog, hs⟩ := Option.bind_eq_some_iff.mp hs
    split at hs
    · rename_i hset
      cases hs
      exact absurd (hcom.symm.trans hset) Bool.false_ne_true
    · exact hwoken (LogState.inv_endOp h.log hlog) hs

end LogWaiters

/-- **Waiters are woken** in every run whose threads come to `acquire_sleeplock` in
time, and the first one that does not is left behind: after a step nobody sleeps in
vain exactly if the step was in time.  The broadcasts that are due wake all sleepers. -/
theorem waiters_woken (s : LogWaiters) (h : waitSystem.Reachable LogWaiters.InTime s) :
    s.NoneLeft ∧ ∀ l s', s.step l = some s' → (s'.NoneLeft ↔ s.InTime l) ∧
      (l = .commit ∨ (∃ c, l = .endOp c ∧ s'.state.log.committing = false) →
        ∀ t, s'.lock.pc t ≠ .asleep true) := by
  have hi := LogWaiters.inv_of_reachable h
  refine ⟨hi.noneLeft', fun l s' hs => ⟨⟨fun hnone => ?_, fun hin => ?_⟩,
    LogWaiters.no_sleeper_of_broadcast hi hs⟩⟩
  · by_contra hin
    cases l with
    | wait t => exact LogWaiters.not_noneLeft_of_late hin hs hnone
    | _ => exact hin trivial
  · exact (LogWaiters.inv_step hi hin hs).noneLeft'

namespace LogWaiters

/-- The state after `init_bcache`. -/
def boot : LogWaiters where
  state := ⟨⟨0, fun _ => 0⟩, ⟨false, 0⟩, ∅, fun _ => 0⟩
  lock := .new 1
  refused := fun _ => false

theorem init_boot : waitSystem.init boot :=
  ⟨⟨rfl, rfl, rfl⟩, SemState.init_new 1, fun _ => rfl⟩

end LogWaiters

/-- A thread that waits for a commit and is woken by it. -/
theorem waiters_woken_one : ∃ s : LogWaiters,
    s.lock.pc 1 = .asleep true ∧ s.state.log = ⟨true, 0⟩ ∧ s.NoneLeft := by
  have hrun : (waitSystem.exec LogWaiters.InTime .boot
      [.check 0, .endOp 0, .check 1, .wait 1, .check 1, .wait 1]).map
        (fun s => (s.lock.pc 1, s.state.log)) = some (.asleep true, ⟨true, 0⟩) := by
    decide
  obtain ⟨s, hs, heq⟩ := Option.map_eq_some_iff.mp hrun
  exact ⟨s, (Prod.mk.inj heq).1, (Prod.mk.inj heq).2,
    (waiters_woken s ⟨_, LogWaiters.init_boot, System.leads_of_exec hs⟩).1⟩

/-- The first credit of `log.lock` went to the first wait.  The commit finishes between
the second pass of thread 1 and its sleep, and nobody is there to wake it. -/
theorem waiter_left : ∃ s : LogWaiters,
    waitSystem.Reachable (fun _ _ => True) s ∧ s.lock.pc 1 = .asleep true ∧
      s.state.log = ⟨false, 0⟩ ∧ ¬ s.NoneLeft := by
  have hrun : (waitSystem.exec (fun _ _ => True) .boot
      [.check 0, .endOp 0, .check 1, .wait 1, .check 1, .commit, .wait 1]).map
        (fun s => (s.lock.pc 1, s.state.log)) = some (.asleep true, ⟨false, 0⟩) := by
    decide
  obtain ⟨s, hs, heq⟩ := Option.map_eq_some_iff.mp hrun
  obtain ⟨hpc, hlog⟩ := Prod.mk.inj heq
  refine ⟨s, ⟨_, LogWaiters.init_boot, System.leads_of_exec hs⟩, hpc, hlog, fun hnone => ?_⟩
  have h := hnone 1 hpc
  rw [hlog] at h
  exact absurd h (by decide)

end OsLab
