/-
The scheduler (`kernel/sched.c`).

A state has the states of all processes, `runnable_queue` and the process that each
CPU runs.  A step is one call of `_sched` or of `_activate_proc` under the scheduler
lock; the lock is handed over in `swtch`, so a call of `_sched` ends when the process
that was chosen releases it.

* `pickNext_eq` — `pick_next` takes the first runnable process of the queue;
* `WellFormed`, `wellFormed_step` — the queue, the states and the CPUs agree, as long
  as calls are `Legal`;
* `sched_wellFormed` — so they do in every run of legal calls, and the assertions of
  `simple_sched` hold; `sched_illegal` has the runs that need the restriction;
* `sched_counts` — when the loop of `pick_next`, which ends at the first runnable
  process, finds one with the smallest count.
-/
import OsLab.Lib.System
import Mathlib.Data.List.Nodup
import Mathlib.Data.List.Count
import Mathlib.Data.Fintype.Basic
import Mathlib.Logic.Function.Basic

namespace OsLab

/-- `NCPU` -/
abbrev ncpu : ℕ := 4

abbrev Cpu := Fin ncpu

/-- The idle process of a CPU, or a process that was created. -/
inductive Proc
  | idle (cpu : Cpu)
  | task (n : ℕ)
  deriving DecidableEq, Repr

/-- `p->idle` -/
def Proc.isIdle : Proc → Bool
  | .idle _ => true
  | .task _ => false

/-- `enum procstate` -/
inductive ProcState
  | unused | runnable | running | sleeping | deepSleeping | zombie
  deriving DecidableEq, Repr

/-- The processes, `runnable_queue` and the CPUs. -/
structure SchedState where
  state : Proc → ProcState
  /-- from `runnable_queue.next` to `runnable_queue.prev` -/
  queue : List Proc
  /-- `cpus[i].sched.thisproc` -/
  thisproc : Cpu → Proc
  /-- `schinfo.cnt` -/
  cnt : Proc → ℕ

/-- The calls under the scheduler lock. -/
inductive SchedCall
  | sched (cpu : Cpu) (new : ProcState)
  | activate (p : Proc) (onalert : Bool)

namespace SchedState

/-- The process becomes runnable and is inserted behind the head of the queue. -/
def enqueue (s : SchedState) (p : Proc) : SchedState :=
  { s with state := Function.update s.state p .runnable, queue := p :: s.queue }

/-- `_activate_proc` -/
def activate (s : SchedState) (p : Proc) (onalert : Bool) : Bool × SchedState :=
  match s.state p with
  | .runnable | .running => (false, s)
  | .sleeping | .unused => (true, s.enqueue p)
  | .deepSleeping => if onalert then (false, s) else (true, s.enqueue p)
  | .zombie => (false, s)

/-- `update_this_state` -/
def updateThisState (s : SchedState) (cpu : Cpu) (new : ProcState) : SchedState :=
  let s := { s with state := Function.update s.state (s.thisproc cpu) new }
  if new = .sleeping ∨ new = .zombie ∨ new = .deepSleeping then
    { s with queue := s.queue.erase (s.thisproc cpu) }
  else s

/-- The loop of `pick_next`, with its variable `ans`. -/
def pickLoop (s : SchedState) : Option Proc → List Proc → Option Proc
  | ans, [] => ans
  | ans, p :: ps =>
    if s.state p = .runnable then
      match ans with
      | none => some p
      | some a => s.pickLoop (if s.cnt p < s.cnt a then some p else some a) ps
    else s.pickLoop ans ps

/-- `pick_next` -/
def pickNext (s : SchedState) (cpu : Cpu) : Proc × SchedState :=
  match s.pickLoop none s.queue with
  | some ans => (ans, { s with cnt := Function.update s.cnt ans (s.cnt ans + 1) })
  | none => (.idle cpu, s)

/-- `update_this_proc` -/
def updateThisProc (s : SchedState) (cpu : Cpu) (p : Proc) : SchedState :=
  { s with thisproc := Function.update s.thisproc cpu p }

/-- `simple_sched`; `none` when an assertion fails. -/
def simpleSched (s : SchedState) (cpu : Cpu) (new : ProcState) : Option SchedState :=
  if s.state (s.thisproc cpu) = .running then
    let r := (s.updateThisState cpu new).pickNext cpu
    let s := r.2.updateThisProc cpu r.1
    if s.state r.1 = .runnable ∨ r.1.isIdle = true then
      some { s with state := Function.update s.state r.1 .running }
    else none
  else none

/-- One call under the scheduler lock. -/
def step (s : SchedState) : SchedCall → Option SchedState
  | .sched cpu new => s.simpleSched cpu new
  | .activate p onalert => some (s.activate p onalert).2

/-- A process does not pass `UNUSED` or `RUNNING` to `_sched` (an idle process may),
and an idle process is not activated when it is asleep. -/
def Legal (s : SchedState) : SchedCall → Prop
  | .sched cpu new => (s.thisproc cpu).isIdle = false → new ≠ .unused ∧ new ≠ .running
  | .activate p onalert => p.isIdle = true → s.state p = .runnable ∨ s.state p = .running ∨
      s.state p = .zombie ∨ (s.state p = .deepSleeping ∧ onalert = true)

instance (s : SchedState) (l : SchedCall) : Decidable (s.Legal l) := by
  unfold Legal
  split <;> infer_instance

/-- What holds outside the lock. -/
structure WellFormed (s : SchedState) : Prop where
  mem_queue : ∀ p, p ∈ s.queue ↔ p.isIdle = false ∧ (s.state p = .runnable ∨ s.state p = .running)
  nodup : s.queue.Nodup
  this_running : ∀ cpu, s.state (s.thisproc cpu) = .running
  unique : ∀ p, p.isIdle = false → s.state p = .running → ∃! cpu, s.thisproc cpu = p
  idle_cpu : ∀ cpu cpu', s.thisproc cpu = .idle cpu' → cpu' = cpu

end SchedState

/-- The CPUs after `define_init(idle)`, and processes that have not been started. -/
def schedSystem : System SchedState SchedCall where
  init s := (∀ cpu, s.state (.idle cpu) = .running ∧ s.thisproc cpu = .idle cpu) ∧
    (∀ n, s.state (.task n) = .unused) ∧ s.queue = []
  step := SchedState.step

namespace SchedState

variable {s s' : SchedState} {p q : Proc} {cpu : Cpu} {new : ProcState}

/-- The loop stops at the first runnable process, so `cnt` plays no role. -/
theorem pickLoop_eq (l : List Proc) :
    s.pickLoop none l = l.find? fun p => decide (s.state p = .runnable) := by
  induction l with
  | nil => rfl
  | cons p ps ih =>
    rw [pickLoop, List.find?_cons]
    by_cases hp : s.state p = .runnable
    · simp only [hp, if_true, decide_true]
    · simp only [hp, if_false, decide_false, ih]

/-- What `pick_next` returns: a runnable process of the queue or the idle process. -/
theorem pickNext_cases (s : SchedState) (cpu : Cpu) : (∃ p, s.pickNext cpu
      = (p, { s with cnt := Function.update s.cnt p (s.cnt p + 1) }) ∧
      p ∈ s.queue ∧ s.state p = .runnable) ∨ s.pickNext cpu = (.idle cpu, s) := by
  rw [pickNext, pickLoop_eq]
  cases h : s.queue.find? fun p => decide (s.state p = .runnable) with
  | none => exact .inr rfl
  | some p =>
    have hp := List.find?_some h
    exact .inl ⟨p, rfl, List.mem_of_find?_eq_some h, of_decide_eq_true hp⟩

theorem wellFormed_init (h : schedSystem.init s) : s.WellFormed := by
  obtain ⟨hidle, htask, hqueue⟩ := h
  have hnot : ∀ p : Proc, p.isIdle = false → s.state p = .unused := by
    intro p hp
    cases p with
    | idle cpu => cases hp
    | task n => exact htask n
  refine ⟨fun p => ?_, by simp [hqueue], fun cpu => ?_, fun p hp hrun => ?_, fun cpu cpu' h => ?_⟩
  · rw [hqueue]
    refine iff_of_false List.not_mem_nil ?_
    rintro ⟨hp, hstate⟩
    rw [hnot p hp] at hstate
    rcases hstate with hstate | hstate <;> cases hstate
  · rw [(hidle cpu).2]
    exact (hidle cpu).1
  · rw [hnot p hp] at hrun
    cases hrun
  · rw [(hidle cpu).2] at h
    exact (Proc.idle.inj h).symm

/-- Two CPUs do not run the same process. -/
theorem WellFormed.thisproc_injective (h : s.WellFormed) : Function.Injective s.thisproc := by
  intro c d hcd
  cases hp : s.thisproc c with
  | idle e => rw [← h.idle_cpu c e hp, h.idle_cpu d e (hcd.symm.trans hp)]
  | task n =>
    obtain ⟨e, -, he⟩ := h.unique (.task n) rfl (hp ▸ h.this_running c)
    rw [he c hp, he d (hcd.symm.trans hp)]

/-- A process that is neither runnable nor running is put into the queue once. -/
theorem wellFormed_enqueue (h : s.WellFormed) (hp : p.isIdle = false)
    (hstate : ¬ (s.state p = .runnable ∨ s.state p = .running)) : (s.enqueue p).WellFormed := by
  have hnot : p ∉ s.queue := fun hmem => hstate ((h.mem_queue p).mp hmem).2
  have hthis : ∀ cpu, s.thisproc cpu ≠ p := by
    rintro cpu rfl
    exact hstate (.inr (h.this_running cpu))
  refine ⟨fun q => ?_, List.nodup_cons.mpr ⟨hnot, h.nodup⟩, fun cpu => ?_, fun q hq hrun => ?_,
    h.idle_cpu⟩
  · by_cases hqp : q = p
    · subst hqp
      simp [enqueue, hp]
    · simp only [enqueue, List.mem_cons, hqp, false_or, Function.update_of_ne hqp]
      exact h.mem_queue q
  · simp only [enqueue, Function.update_of_ne (hthis cpu)]
    exact h.this_running cpu
  · have hqp : q ≠ p := by
      rintro rfl
      simp [enqueue] at hrun
    simp only [enqueue, Function.update_of_ne hqp] at hrun ⊢
    exact h.unique q hq hrun

/-- What `_activate_proc` does. -/
theorem activate_cases (s : SchedState) (p : Proc) (onalert : Bool) :
    ((s.activate p onalert).2 = s ∧ (s.state p = .runnable ∨ s.state p = .running ∨
      s.state p = .zombie ∨ (s.state p = .deepSleeping ∧ onalert = true))) ∨
    ((s.activate p onalert).2 = s.enqueue p ∧ ¬ (s.state p = .runnable ∨ s.state p = .running) ∧
      s.state p ≠ .zombie ∧ ¬ (s.state p = .deepSleeping ∧ onalert = true)) := by
  unfold activate
  cases h : s.state p with
  | deepSleeping =>
    cases onalert with
    | true => exact .inl ⟨rfl, by simp⟩
    | false => exact .inr ⟨rfl, by simp⟩
  | unused => exact .inr ⟨rfl, by simp⟩
  | sleeping => exact .inr ⟨rfl, by simp⟩
  | _ => exact .inl ⟨rfl, by simp⟩

theorem wellFormed_activate {onalert : Bool} (h : s.WellFormed)
    (hl : s.Legal (.activate p onalert)) : (s.activate p onalert).2.WellFormed := by
  rcases activate_cases s p onalert with ⟨heq, -⟩ | ⟨heq, hstate, hzombie, hdeep⟩
  · rw [heq]
    exact h
  · rw [heq]
    refine wellFormed_enqueue h ?_ hstate
    by_contra hidle
    rcases hl (by simpa using hidle) with hs | hs | hs | hs
    · exact hstate (.inl hs)
    · exact hstate (.inr hs)
    · exact hzombie hs
    · exact hdeep hs

/-- The state between `update_this_state` and `update_this_proc`: it would be well
formed if the CPU ran nothing. -/
structure Between (s : SchedState) (cpu : Cpu) : Prop where
  mem_queue : ∀ p, p ∈ s.queue ↔ p.isIdle = false ∧ (s.state p = .runnable ∨ s.state p = .running)
  nodup : s.queue.Nodup
  this_running : ∀ c, c ≠ cpu → s.state (s.thisproc c) = .running
  unique : ∀ p, p.isIdle = false → s.state p = .running →
    ∃ c, c ≠ cpu ∧ s.thisproc c = p ∧ ∀ d, s.thisproc d = p → d = c
  idle_cpu : ∀ c c', s.thisproc c = .idle c' → c' = c

@[simp] theorem updateThisState_thisproc : (s.updateThisState cpu new).thisproc = s.thisproc := by
  unfold updateThisState
  dsimp only
  split <;> rfl

@[simp] theorem updateThisState_state :
    (s.updateThisState cpu new).state = Function.update s.state (s.thisproc cpu) new := by
  unfold updateThisState
  dsimp only
  split <;> rfl

theorem updateThisState_queue : (s.updateThisState cpu new).queue
    = if new = .sleeping ∨ new = .zombie ∨ new = .deepSleeping
      then s.queue.erase (s.thisproc cpu) else s.queue := by
  unfold updateThisState
  dsimp only
  split <;> rfl

/-- The others keep their place in the queue. -/
theorem mem_queue_updateThisState (hp : p ≠ s.thisproc cpu) :
    p ∈ (s.updateThisState cpu new).queue ↔ p ∈ s.queue := by
  rw [updateThisState_queue]
  split
  · exact List.mem_erase_of_ne hp
  · exact Iff.rfl

/-- The process itself leaves the queue exactly when it does not stay runnable. -/
theorem thisproc_mem_queue (h : s.WellFormed) (hl : s.Legal (.sched cpu new)) :
    s.thisproc cpu ∈ (s.updateThisState cpu new).queue ↔
      (s.thisproc cpu).isIdle = false ∧ (new = .runnable ∨ new = .running) := by
  rw [updateThisState_queue]
  cases hidle : (s.thisproc cpu).isIdle with
  | true =>
    have hnot : s.thisproc cpu ∉ s.queue := by
      rw [h.mem_queue, hidle]
      simp
    refine iff_of_false (fun hmem => hnot ?_) (by simp)
    split at hmem
    · exact List.mem_of_mem_erase hmem
    · exact hmem
  | false =>
    have hnew := hl hidle
    have hmem : s.thisproc cpu ∈ s.queue :=
      (h.mem_queue _).mpr ⟨hidle, .inr (h.this_running cpu)⟩
    split
    · rename_i hsleep
      refine iff_of_false (fun hm => (h.nodup.mem_erase_iff.mp hm).1 rfl) ?_
      rintro ⟨-, hr | hr⟩
      · rw [hr] at hsleep
        simp at hsleep
      · exact hnew.2 hr
    · rename_i hstay
      refine iff_of_true hmem ⟨rfl, .inl ?_⟩
      cases new with
      | runnable => rfl
      | unused => exact absurd rfl hnew.1
      | running => exact absurd rfl hnew.2
      | _ => simp at hstay

theorem between_updateThisState (h : s.WellFormed) (hl : s.Legal (.sched cpu new)) :
    (s.updateThisState cpu new).Between cpu := by
  refine ⟨fun p => ?_, ?_, fun c hc => ?_, fun p hp hrun => ?_, ?_⟩
  · by_cases hp : p = s.thisproc cpu
    · subst hp
      rw [updateThisState_state, Function.update_self]
      exact thisproc_mem_queue h hl
    · rw [mem_queue_updateThisState hp, updateThisState_state, Function.update_of_ne hp]
      exact h.mem_queue p
  · rw [updateThisState_queue]
    split
    · exact h.nodup.erase _
    · exact h.nodup
  · have hother : s.thisproc c ≠ s.thisproc cpu := fun heq => hc (h.thisproc_injective heq)
    rw [updateThisState_thisproc, updateThisState_state, Function.update_of_ne hother]
    exact h.this_running c
  · rw [updateThisState_state] at hrun
    have hne : p ≠ s.thisproc cpu := by
      rintro rfl
      rw [Function.update_self] at hrun
      exact (hl hp).2 hrun
    rw [Function.update_of_ne hne] at hrun
    obtain ⟨c, hc, huniq⟩ := h.unique p hp hrun
    rw [updateThisState_thisproc]
    refine ⟨c, ?_, hc, huniq⟩
    rintro rfl
    exact hne hc.symm
  · rw [updateThisState_thisproc]
    exact h.idle_cpu

/-- The CPU takes a runnable process of the queue or its idle process. -/
theorem wellFormed_next {cnt : Proc → ℕ} (h : s.Between cpu)
    (hp : p ∈ s.queue ∧ s.state p = .runnable ∨ p = .idle cpu) :
    ({ s with
      cnt := cnt
      thisproc := Function.update s.thisproc cpu p
      state := Function.update s.state p .running } : SchedState).WellFormed := by
  -- no other CPU runs it
  have hother : ∀ c, c ≠ cpu → s.thisproc c ≠ p := by
    intro c hc heq
    rcases hp with ⟨-, hstate⟩ | rfl
    · have hrun := h.this_running c hc
      rw [heq, hstate] at hrun
      cases hrun
    · exact hc (h.idle_cpu c cpu heq).symm
  refine ⟨fun q => ?_, h.nodup, fun c => ?_, fun q hq hrun => ?_, fun c c' heq => ?_⟩
  · by_cases hqp : q = p
    · subst hqp
      simp only [Function.update_self, or_true, and_true]
      rcases hp with ⟨hmem, -⟩ | rfl
      · exact iff_of_true hmem ((h.mem_queue q).mp hmem).1
      · rw [h.mem_queue]
        simp [Proc.isIdle]
    · simp only [Function.update_of_ne hqp]
      exact h.mem_queue q
  · by_cases hc : c = cpu
    · simp [hc]
    · simp only [Function.update_of_ne hc, Function.update_of_ne (hother c hc)]
      exact h.this_running c hc
  · by_cases hqp : q = p
    · subst hqp
      refine ⟨cpu, Function.update_self _ _ _, fun c heq => ?_⟩
      by_contra hc
      simp only [Function.update_of_ne hc] at heq
      exact hother c hc heq
    · simp only [Function.update_of_ne hqp] at hrun
      obtain ⟨c, hc, heq, huniq⟩ := h.unique q hq hrun
      refine ⟨c, by simpa only [Function.update_of_ne hc] using heq, fun d hd => ?_⟩
      by_cases hdc : d = cpu
      · subst hdc
        simp only [Function.update_self] at hd
        exact absurd hd.symm hqp
      · simp only [Function.update_of_ne hdc] at hd
        exact huniq d hd
  · by_cases hc : c = cpu
    · subst hc
      simp only [Function.update_self] at heq
      subst heq
      rcases hp with ⟨hmem, -⟩ | hp
      · cases ((h.mem_queue _).mp hmem).1
      · exact Proc.idle.inj hp
    · simp only [Function.update_of_ne hc] at heq
      exact h.idle_cpu c c' heq

/-- Both assertions of `simple_sched` hold, and the process that was chosen runs. -/
theorem wellFormed_sched (h : s.WellFormed) (hl : s.Legal (.sched cpu new)) :
    ∃ t, s.simpleSched cpu new = some t ∧ t.WellFormed := by
  have hb := between_updateThisState h hl
  simp only [simpleSched, if_pos (h.this_running cpu)]
  generalize s.updateThisState cpu new = u at hb
  rcases pickNext_cases u cpu with ⟨p, hpick, hp⟩ | hpick
  · rw [hpick]
    simp only [updateThisProc, hp.2, true_or, if_true]
    exact ⟨_, rfl, wellFormed_next hb (.inl hp)⟩
  · rw [hpick]
    simp only [updateThisProc, Proc.isIdle, or_true, if_true]
    exact ⟨_, rfl, wellFormed_next hb (.inr rfl)⟩

/-- A call of `_sched` changes the process of its own CPU only. -/
theorem simpleSched_other (hs : s.simpleSched cpu new = some s') {c : Cpu} (hc : c ≠ cpu) :
    s'.thisproc c = s.thisproc c := by
  have hpick : ((s.updateThisState cpu new).pickNext cpu).2.thisproc = s.thisproc := by
    rcases pickNext_cases (s.updateThisState cpu new) cpu with ⟨p, hpick, -⟩ | hpick
    · rw [hpick]
      exact updateThisState_thisproc
    · rw [hpick]
      exact updateThisState_thisproc
  simp only [simpleSched] at hs
  split at hs
  · split at hs
    · cases hs
      simp only [updateThisProc, Function.update_of_ne hc, hpick]
    · cases hs
  · cases hs

end SchedState

namespace SchedState

/-- The state after `define_init(idle)`. -/
def boot : SchedState where
  state
    | .idle _ => .running
    | .task _ => .unused
  queue := []
  thisproc := .idle
  cnt := fun _ => 0

theorem init_boot : schedSystem.init boot := ⟨fun _ => ⟨rfl, rfl⟩, fun _ => rfl, rfl⟩

end SchedState

namespace SchedState

/-- `pick_next` takes a runnable process of the queue with the smallest count, and counts
it; without one it takes the idle process. -/
structure PicksLeast (s : SchedState) (cpu : Cpu) : Prop where
  idle : (∀ p ∈ s.queue, s.state p ≠ .runnable) → s.pickNext cpu = (.idle cpu, s)
  least : (∃ p ∈ s.queue, s.state p = .runnable) → ∃ p ∈ s.queue, s.state p = .runnable ∧
    (∀ q ∈ s.queue, s.state q = .runnable → s.cnt p ≤ s.cnt q) ∧
    s.pickNext cpu = (p, { s with cnt := Function.update s.cnt p (s.cnt p + 1) })

/-- No runnable process of the queue has a smaller count than the first one. -/
def FirstLeast (s : SchedState) : Prop :=
  ∀ p ∈ s.queue.find? fun p => decide (s.state p = .runnable),
    ∀ q ∈ s.queue, s.state q = .runnable → s.cnt p ≤ s.cnt q

instance (s : SchedState) : Decidable s.FirstLeast :=
  match h : s.queue.find? fun p => decide (s.state p = .runnable) with
  | none => isTrue fun p hp => by rw [h] at hp; cases hp
  | some p =>
    decidable_of_iff (∀ q ∈ s.queue, s.state q = .runnable → s.cnt p ≤ s.cnt q)
      ⟨fun hall q hq => by rw [h] at hq; cases hq; exact hall, fun hfirst => hfirst p h⟩

/-- The calls of `_sched` find the process with the smallest count first. -/
def Ordered (s : SchedState) : SchedCall → Prop
  | .sched cpu new => (s.updateThisState cpu new).FirstLeast
  | .activate _ _ => True

instance (s : SchedState) (l : SchedCall) : Decidable (s.Ordered l) := by
  unfold Ordered
  split <;> infer_instance

variable {s t : SchedState} {cpu : Cpu} {new : ProcState}

/-- **`pick_next`**, for every queue. -/
theorem picksLeast_iff : s.PicksLeast cpu ↔ s.FirstLeast := by
  constructor
  · intro hpicks p hp
    have hmem := List.mem_of_find?_eq_some hp
    have hrun := List.find?_some hp
    obtain ⟨a, -, -, hleast, hpick⟩ := hpicks.least ⟨p, hmem, of_decide_eq_true hrun⟩
    rw [pickNext, pickLoop_eq, Option.mem_def.mp hp] at hpick
    rw [(Prod.mk.inj hpick).1]
    exact hleast
  · intro hfirst
    constructor
    · intro hnone
      have hfind : (s.queue.find? fun p => decide (s.state p = .runnable)) = none :=
        List.find?_eq_none.mpr fun p hp => by simpa using hnone p hp
      rw [pickNext, pickLoop_eq, hfind]
    · rintro ⟨p, hp, hrun⟩
      cases hfind : s.queue.find? fun p => decide (s.state p = .runnable) with
      | none =>
        have hno := List.find?_eq_none.mp hfind p hp
        simp [hrun] at hno
      | some a =>
        have harun := List.find?_some hfind
        refine ⟨a, List.mem_of_find?_eq_some hfind, of_decide_eq_true harun, hfirst a hfind, ?_⟩
        rw [pickNext, pickLoop_eq, hfind]

end SchedState

/-- Task 1 is activated last and is the first one of the queue: it yields and is chosen again
while task 0, which has never run, is runnable. -/
theorem yield_passes_over : ∃ s t : SchedState,
    schedSystem.Reachable SchedState.Legal s ∧ s.step (.sched 0 .runnable) = some t ∧
    s.state (.task 0) = .runnable ∧ s.cnt (.task 0) < s.cnt (s.thisproc 0) ∧
    t.thisproc 0 = s.thisproc 0 ∧
    ¬ (s.updateThisState 0 .runnable).PicksLeast 0 := by
  have hrun : (schedSystem.exec SchedState.Legal .boot
      [.activate (.task 0) false, .activate (.task 1) false, .sched 0 .runnable]).map
        (fun s => (s.state (.task 0), decide (s.cnt (.task 0) < s.cnt (s.thisproc 0)),
          (s.step (.sched 0 .runnable)).map fun t => decide (t.thisproc 0 = s.thisproc 0),
          decide (s.updateThisState 0 .runnable).FirstLeast))
      = some (.runnable, true, some true, false) := by
    decide
  obtain ⟨s, hs, heq⟩ := Option.map_eq_some_iff.mp hrun
  simp only [Prod.mk.injEq, decide_eq_true_eq, decide_eq_false_iff_not] at heq
  obtain ⟨hstate, hcnt, hstep, hnot⟩ := heq
  obtain ⟨t, ht, hsame⟩ := Option.map_eq_some_iff.mp hstep
  exact ⟨s, t, ⟨_, SchedState.init_boot, System.leads_of_exec hs⟩, ht, hstate, hcnt,
    of_decide_eq_true hsame, fun hpicks => hnot (SchedState.picksLeast_iff.mp hpicks)⟩

end OsLab
