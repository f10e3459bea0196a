/-
`kill` and the scheduler (`kill` and `dfs_tree` of `kernel/proc.c`, `kernel/sched.c`).

A kill marks the process that `dfs_tree` finds under `treelock`, calls `alert_proc` on it
after that, and returns 0.  These three sections are interleaved with the calls under the
scheduler lock, in which the target sleeps (`_sched(SLEEPING)` at the end of `_wait_sem`),
yields or is woken.

* `KillState.Kept` — the target of a kill that has returned is not in `SLEEPING`;
* `KillState.Awake` — no process that has been alerted by a kill calls `_sched(SLEEPING)`:
  the scheduler does not look at `killed`;
* `kill_kept` — so it is kept in the runs of such calls, and a call that is not so can be
  followed by a return of `kill` with its target asleep.
-/
import OsLab.Kernel.Sched

namespace OsLab

/-- Where a call of `kill` is. -/
inductive KillPc
  | out
  /-- after the section under `treelock`, before `alert_proc` -/
  | marked (p : Proc)
  /-- before `return 0` -/
  | alerted (p : Proc)
  deriving DecidableEq, Repr

/-- The scheduler, the flags `killed` and the calls of `kill`. -/
structure KillState where
  sched : SchedState
  killed : Proc → Bool
  kill : ℕ → KillPc
  /-- an `alert_proc` of a kill has been done on the process -/
  alerted : Proc → Bool
  /-- a kill of the process has returned 0 -/
  returned : Proc → Bool

inductive KillStep
  | call (l : SchedCall)
  /-- call `k` of `kill` finds `p` and marks it -/
  | mark (k : ℕ) (p : Proc)
  | alert (k : ℕ)
  | ret (k : ℕ)

namespace KillState

def step (s : KillState) : KillStep → Option KillState
  | .call l => (s.sched.step l).map fun sched => { s with sched := sched }
  | .mark k p =>
    -- `dfs_tree` finds processes of the tree that have been started
    if s.kill k = .out ∧ p.isIdle = false ∧ s.sched.state p ≠ .unused then
      some { s with
        killed := Function.update s.killed p true
        kill := Function.update s.kill k (.marked p) }
    else none
  | .alert k =>
    match s.kill k with
    | .marked p => some { s with
        sched := (s.sched.activate p true).2
        kill := Function.update s.kill k (.alerted p)
        alerted := Function.update s.alerted p true }
    | _ => none
  | .ret k =>
    match s.kill k with
    | .alerted p => some { s with
        kill := Function.update s.kill k .out
        returned := Function.update s.returned p true }
    | _ => none

/-- Whoever has been killed is marked and does not sleep. -/
def Kept (s : KillState) : Prop :=
  ∀ p, s.returned p = true → s.killed p = true ∧ s.sched.state p ≠ .sleeping

/-- The process that goes to sleep has not been alerted by a kill. -/
def Awake (s : KillState) : KillStep → Prop
  | .call (.sched cpu new) => new = .sleeping → s.alerted (s.sched.thisproc cpu) = false
  | _ => True

instance (s : KillState) (l : KillStep) : Decidable (s.Awake l) := by
  unfold Awake
  split <;> infer_instance

end KillState

/-- The CPUs after `define_init(idle)`, and no call of `kill`. -/
def killSystem : System KillState KillStep where
  init s := schedSystem.init s.sched ∧ (∀ k, s.kill k = .out) ∧
    ∀ p, s.alerted p = false ∧ s.returned p = false
  step := KillState.step

namespace SchedState

variable {s s' : SchedState} {p : Proc} {cpu : Cpu} {new : ProcState}

/-- What a call of `_sched` does to the states. -/
theorem state_simpleSched (h : s.simpleSched cpu new = some s') :
    ∃ next, s'.state = Function.update (Function.update s.state (s.thisproc cpu) new) next .running
      ∧ (next = .idle cpu ∨ Function.update s.state (s.thisproc cpu) new next = .runnable) := by
  simp only [simpleSched] at h
  split at h
  · rcases pickNext_cases (s.updateThisState cpu new) cpu with ⟨p, hpick, -, hp⟩ | hpick
    · rw [hpick] at h
      rw [updateThisState_state] at hp
      split at h
      · cases h
        exact ⟨p, by simp [updateThisProc], .inr hp⟩
      · cases h
    · rw [hpick] at h
      split at h
      · cases h
        exact ⟨_, by simp [updateThisProc], .inl rfl⟩
      · cases h
  · cases h

/-- Only a process that calls `_sched(SLEEPING)` comes to sleep. -/
theorem not_sleeping_simpleSched (h : s.simpleSched cpu new = some s')
    (hp : s.state p ≠ .sleeping) (hnew : new = .sleeping → p ≠ s.thisproc cpu) :
    s'.state p ≠ .sleeping := by
  obtain ⟨next, hstate, -⟩ := state_simpleSched h
  rw [hstate]
  by_cases hnext : p = next
  · rw [hnext, Function.update_self]
    simp
  · rw [Function.update_of_ne hnext]
    by_cases hthis : p = s.thisproc cpu
    · subst hthis
      rw [Function.update_self]
      exact fun heq => hnew heq rfl
    · rwa [Function.update_of_ne hthis]

/-- A process that calls `_sched(SLEEPING)` sleeps. -/
theorem sleeping_simpleSched (h : s.simpleSched cpu .sleeping = some s')
    (hidle : (s.thisproc cpu).isIdle = false) : s'.state (s.thisproc cpu) = .sleeping := by
  obtain ⟨next, hstate, hnext⟩ := state_simpleSched h
  have hne : s.thisproc cpu ≠ next := by
    rintro rfl
    rcases hnext with hnext | hnext
    · rw [hnext] at hidle
      cases hidle
    · rw [Function.update_self] at hnext
      cases hnext
  rw [hstate, Function.update_of_ne hne, Function.update_self]

/-- Nobody is asleep after `_activate_proc` who was not before. -/
theorem not_sleeping_activate {q : Proc} {onalert : Bool} (hp : s.state p ≠ .sleeping) :
    (s.activate q onalert).2.state p ≠ .sleeping := by
  rcases activate_cases s q onalert with ⟨heq, -⟩ | ⟨heq, -⟩
  · rwa [heq]
  · rw [heq]
    by_cases hpq : p = q
    · simp [enqueue, hpq]
    · simpa only [enqueue, Function.update_of_ne hpq] using hp

/-- `alert_proc` wakes a process that sleeps. -/
theorem not_sleeping_alert : (s.activate p true).2.state p ≠ .sleeping := by
  rcases activate_cases s p true with ⟨heq, hcase⟩ | ⟨heq, -⟩
  · rw [heq]
    rcases hcase with h | h | h | h <;> simp [h]
  · rw [heq]
    simp [enqueue]

end SchedState

namespace KillState

variable {s s' : KillState} {l : KillStep}

/-- The flags agree with the calls. -/
structure Flags (s : KillState) : Prop where
  marked : ∀ k p, s.kill k = .marked p → s.killed p = true ∧ p.isIdle = false
  alerted : ∀ k p, s.kill k = .alerted p → s.alerted p = true
  killed : ∀ p, s.alerted p = true → s.killed p = true ∧ p.isIdle = false
  returned : ∀ p, s.returned p = true → s.alerted p = true
  /-- who has been alerted has been killed, or a kill is about to return -/
  pending : ∀ p, s.alerted p = true → s.returned p = true ∨ ∃ k, s.kill k = .alerted p

theorem flags_init (h : killSystem.init s) : s.Flags := by
  obtain ⟨-, hkill, hflags⟩ := h
  refine ⟨fun k p hk => ?_, fun k p hk => ?_, fun p hp => ?_, fun p hp => ?_, fun p hp => ?_⟩
  · rw [hkill] at hk
    cases hk
  · rw [hkill] at hk
    cases hk
  · rw [(hflags p).1] at hp
    cases hp
  · rw [(hflags p).2] at hp
    cases hp
  · rw [(hflags p).1] at hp
    cases hp

/-- Setting a flag clears none. -/
theorem update_flag {flag : Proc → Bool} {p q : Proc} (hq : flag q = true) :
    Function.update flag p true q = true := by
  by_cases hqp : q = p
  · rw [hqp, Function.update_self]
  · rwa [Function.update_of_ne hqp]

theorem flags_mark (h : s.Flags) {k : ℕ} {p : Proc} (hs : s.step (.mark k p) = some s') :
    s'.Flags := by
  simp only [step] at hs
  split at hs
  · rename_i hguard
    obtain ⟨hk, hidle, -⟩ := hguard
    cases hs
    have hkeep : ∀ q, s.killed q = true → Function.update s.killed p true q = true := fun q hq =>
      update_flag hq
    refine ⟨fun j q hj => ?_, fun j q hj => ?_, fun q hq => ?_, h.returned, fun q hq => ?_⟩
    · by_cases hjk : j = k
      · subst hjk
        simp only [Function.update_self, KillPc.marked.injEq] at hj
        subst hj
        exact ⟨Function.update_self _ _ _, hidle⟩
      · simp only [Function.update_of_ne hjk] at hj
        obtain ⟨hkilled, hq⟩ := h.marked j q hj
        exact ⟨hkeep q hkilled, hq⟩
    · by_cases hjk : j = k
      · subst hjk
        simp at hj
      · simp only [Function.update_of_ne hjk] at hj
        exact h.alerted j q hj
    · obtain ⟨hkilled, hq'⟩ := h.killed q hq
      exact ⟨hkeep q hkilled, hq'⟩
    · refine (h.pending q hq).imp id fun hj => ?_
      obtain ⟨j, hj⟩ := hj
      have hjk : j ≠ k := by
        rintro rfl
        rw [hk] at hj
        cases hj
      exact ⟨j, by simp only [Function.update_of_ne hjk, hj]⟩
  · cases hs

theorem flags_alert (h : s.Flags) {k : ℕ} (hs : s.step (.alert k) = some s') : s'.Flags := by
  simp only [step] at hs
  split at hs
  · rename_i p hk
    cases hs
    obtain ⟨hkilled, hidle⟩ := h.marked k p hk
    have hkeep : ∀ q, s.alerted q = true → Function.update s.alerted p true q = true := fun q hq =>
      update_flag hq
    refine ⟨fun j q hj => ?_, fun j q hj => ?_, fun q hq => ?_, fun q hq => hkeep q (h.returned q hq),
      fun q hq => ?_⟩
    · by_cases hjk : j = k
      · subst hjk
        simp at hj
      · simp only [Function.update_of_ne hjk] at hj
        exact h.marked j q hj
    · by_cases hjk : j = k
      · subst hjk
        simp only [Function.update_self, KillPc.alerted.injEq] at hj
        subst hj
        exact Function.update_self _ _ _
      · simp only [Function.update_of_ne hjk] at hj
        exact hkeep q (h.alerted j q hj)
    · by_cases hqp : q = p
      · subst hqp
        exact ⟨hkilled, hidle⟩
      · simp only [Function.update_of_ne hqp] at hq
        exact h.killed q hq
    · by_cases hqp : q = p
      · subst hqp
        exact .inr ⟨k, Function.update_self _ _ _⟩
      · simp only [Function.update_of_ne hqp] at hq
        refine (h.pending q hq).imp id fun hj => ?_
        obtain ⟨j, hj⟩ := hj
        have hjk : j ≠ k := by
          rintro rfl
          rw [hk] at hj
          cases hj
        exact ⟨j, by simp only [Function.update_of_ne hjk, hj]⟩
  · cases hs

theorem flags_ret (h : s.Flags) {k : ℕ} (hs : s.step (.ret k) = some s') : s'.Flags := by
  simp only [step] at hs
  split at hs
  · rename_i p hk
    cases hs
    have hout : ∀ {j pc}, Function.update s.kill k .out j = pc → pc ≠ .out → s.kill j = pc := by
      intro j pc hj hpc
      by_cases hjk : j = k
      · subst hjk
        rw [Function.update_self] at hj
        exact absurd hj.symm hpc
      · rwa [Function.update_of_ne hjk] at hj
    refine ⟨fun j q hj => h.marked j q (hout hj (by simp)),
      fun j q hj => h.alerted j q (hout hj (by simp)), h.killed, fun q hq => ?_, fun q hq => ?_⟩
    · by_cases hqp : q = p
      · subst hqp
        exact h.alerted k q hk
      · simp only [Function.update_of_ne hqp] at hq
        exact h.returned q hq
    · by_cases hqp : q = p
      · subst hqp
        exact .inl (Function.update_self _ _ _)
      · refine (h.pending q hq).imp (fun hr => ?_) fun hj => ?_
        · simp only [Function.update_of_ne hqp, hr]
        · obtain ⟨j, hj⟩ := hj
          have hjk : j ≠ k := by
            rintro rfl
            rw [hk] at hj
            exact hqp (KillPc.alerted.inj hj).symm
          exact ⟨j, by simp only [Function.update_of_ne hjk, hj]⟩
  · cases hs

theorem flags_step (h : s.Flags) (hs : s.step l = some s') : s'.Flags := by
  cases l with
  | call l =>
    obtain ⟨sched, -, rfl⟩ := Option.map_eq_some_iff.mp hs
    exact ⟨h.marked, h.alerted, h.killed, h.returned, h.pending⟩
  | mark k p => exact flags_mark h hs
  | alert k => exact flags_alert h hs
  | ret k => exact flags_ret h hs

/-- Who has been alerted does not go to sleep again. -/
theorem awake_step (h : ∀ p, s.alerted p = true → s.sched.state p ≠ .sleeping) (hl : s.Awake l)
    (hs : s.step l = some s') : ∀ p, s'.alerted p = true → s'.sched.state p ≠ .sleeping := by
  intro p hp
  cases l with
  | call l =>
    obtain ⟨sched, hsched, rfl⟩ := Option.map_eq_some_iff.mp hs
    cases l with
    | sched cpu new =>
      refine SchedState.not_sleeping_simpleSched hsched (h p hp) fun hnew hthis => ?_
      rw [hthis, hl hnew] at hp
      cases hp
    | activate q onalert =>
      cases hsched
      exact SchedState.not_sleeping_activate (h p hp)
  | mark k q =>
    simp only [step] at hs
    split at hs
    · cases hs
      exact h p hp
    · cases hs
  | alert k =>
    simp only [step] at hs
    split at hs
    · rename_i q hk
      cases hs
      by_cases hpq : p = q
      · subst hpq
        exact SchedState.not_sleeping_alert
      · simp only [Function.update_of_ne hpq] at hp
        exact SchedState.not_sleeping_activate (h p hp)
    · cases hs
  | ret k =>
    simp only [step] at hs
    split at hs
    · cases hs
      exact h p hp
    · cases hs

theorem inv_of_reachable (h : killSystem.Reachable Awake s) :
    s.Flags ∧ ∀ p, s.alerted p = true → s.sched.state p ≠ .sleeping := by
  refine h.induction (I := fun s => s.Flags ∧ ∀ p, s.alerted p = true → s.sched.state p ≠ .sleeping)
    (fun s (h : killSystem.init s) => ⟨flags_init h, fun p hp => ?_⟩) fun s l s' hi hl hs =>
      ⟨flags_step hi.1 hs, awake_step hi.2 hl hs⟩
  rw [(h.2.2 p).1] at hp
  cases hp

/-- A process that sleeps after it has been alerted may be killed: the call of `kill` that
has alerted it returns. -/
theorem leads_not_kept (h : s.Flags) (hl : ¬ s.Awake l) (hs : s.step l = some s') :
    ∃ t, killSystem.Leads (fun _ _ => True) s' t ∧ ¬ t.Kept := by
  cases l with
  | call l =>
    cases l with
    | sched cpu new =>
      simp only [Awake, Classical.not_imp, Bool.not_eq_false] at hl
      obtain ⟨rfl, halert⟩ := hl
      obtain ⟨sched, hsched, rfl⟩ := Option.map_eq_some_iff.mp hs
      have hsleep := SchedState.sleeping_simpleSched hsched (h.killed _ halert).2
      rcases h.pending _ halert with hret | ⟨k, hk⟩
      · exact ⟨_, .refl _, fun hkept => (hkept _ hret).2 hsleep⟩
      · refine ⟨{ s with
          sched := sched
          kill := Function.update s.kill k .out
          returned := Function.update s.returned (s.sched.thisproc cpu) true },
          (System.Leads.refl _).tail (l := .ret k) trivial ?_, fun hkept => ?_⟩
        · simp only [killSystem, step, hk]
        · exact (hkept (s.sched.thisproc cpu) (Function.update_self _ _ _)).2 hsleep
    | activate q onalert => exact absurd trivial hl
  | _ => exact absurd trivial hl

end KillState

/-- **A killed process does not sleep** as long as no process that a kill has alerted calls
`_sched(SLEEPING)`; after such a call the kill may return with its target asleep. -/
theorem kill_kept (s : KillState) (h : killSystem.Reachable KillState.Awake s) :
    s.Kept ∧ ∀ l s', ¬ s.Awake l → killSystem.step s l = some s' →
      ∃ t, killSystem.Leads (fun _ _ => True) s' t ∧ ¬ t.Kept := by
  obtain ⟨hflags, hawake⟩ := KillState.inv_of_reachable h
  refine ⟨fun p hp => ?_, fun l s' hl hs => KillState.leads_not_kept hflags hl hs⟩
  have halert := hflags.returned p hp
  exact ⟨(hflags.killed p halert).1, hawake p halert⟩

namespace KillState

/-- The state after `define_init(idle)`. -/
def boot : KillState := ⟨.boot, fun _ => false, fun _ => .out, fun _ => false, fun _ => false⟩

theorem init_boot : killSystem.init boot :=
  ⟨SchedState.init_boot, fun _ => rfl, fun _ => ⟨rfl, rfl⟩⟩

end KillState

/-- A process that sleeps is killed, and runs again. -/
theorem kill_kept_one : ∃ s : KillState, s.returned (.task 0) = true ∧
    s.sched.thisproc 0 = .task 0 ∧ s.Kept := by
  have hrun : (killSystem.exec KillState.Awake .boot
      [.call (.activate (.task 0) false), .call (.sched 0 .runnable), .call (.sched 0 .sleeping),
        .mark 0 (.task 0), .alert 0, .ret 0, .call (.sched 0 .runnable)]).map
      (fun s => (s.returned (.task 0), s.sched.thisproc 0)) = some (true, .task 0) := by
    decide
  obtain ⟨s, hs, heq⟩ := Option.map_eq_some_iff.mp hrun
  exact ⟨s, (Prod.mk.inj heq).1, (Prod.mk.inj heq).2,
    (kill_kept s ⟨_, KillState.init_boot, System.leads_of_exec hs⟩).1⟩

/-- **A killed process goes to sleep**: it runs while it is killed, and sleeps after that. -/
theorem kill_asleep : ∃ s : KillState, killSystem.Reachable (fun _ _ => True) s ∧
    s.returned (.task 0) = true ∧ s.sched.state (.task 0) = .sleeping ∧ ¬ s.Kept := by
  have hrun : (killSystem.exec (fun _ _ => True) .boot
      [.call (.activate (.task 0) false), .call (.sched 0 .runnable), .mark 0 (.task 0), .alert 0,
        .ret 0, .call (.sched 0 .sleeping)]).map
      (fun s => (s.returned (.task 0), s.sched.state (.task 0))) = some (true, .sleeping) := by
    decide
  obtain ⟨s, hs, heq⟩ := Option.map_eq_some_iff.mp hrun
  obtain ⟨hret, hsleep⟩ := Prod.mk.inj heq
  exact ⟨s, ⟨_, KillState.init_boot, System.leads_of_exec hs⟩, hret, hsleep, fun hkept =>
    (hkept _ hret).2 hsleep⟩

end OsLab
