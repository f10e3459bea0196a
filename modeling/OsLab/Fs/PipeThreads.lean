/-
Who can run in the functions of a pipe (`pipeWrite`, `pipeRead` and `pipeClose` of
`fs/pipe.c`).

The three functions take `pi->lock`; the loops of the first two call `wait_sem` with
the lock held.  A step of `pipeThreadSystem` is one section of a process: an acquisition
of the lock, a turn of a loop, a wait, a post, a release.

* `bytes_reachable` — the turns are those of `pipeSystem`;
* `PipeThreads.Unblocked` — a turn does not find the pipe full (or empty) with the other
  end open;
* `pipe_progress` — as long as all turns are so, somebody can take a step whenever a
  process is in one of the functions; the first turn that is not so puts a process to
  sleep with the lock;
* `pipe_stuck` — the run in which a reader comes before the writer.
-/
import OsLab.Fs.Pipe
import OsLab.Common.SemThreads

namespace OsLab

/-- Where a process is in the functions of the pipe. -/
inductive PipePc
  | out
  /-- before `_acquire_spinlock(&pi->lock)` of `pipeWrite` or `pipeRead` -/
  | enter
  /-- at the head of the loop -/
  | loop
  /-- in `wait_sem`, on `wlock` when `w` is set and on `rlock` otherwise -/
  | waiting (w : Bool)
  /-- before `post_all_sem` -/
  | posting (w : Bool)
  /-- before `_release_spinlock(&pi->lock)` -/
  | leaving
  /-- before `_acquire_spinlock(&pi->lock)` of `pipeClose` -/
  | closeEnter (writable : Bool)
  | closeFlag (writable : Bool)
  | closePost (writable : Bool)
  | closeLeave (writable : Bool)
  deriving DecidableEq, Repr

namespace PipePc

/-- The process has `pi->lock`. -/
def holds : PipePc → Bool
  | .out | .enter | .closeEnter _ => false
  | _ => true

/-- The call of the process has not come to its end. -/
def inCall : PipePc → Bool
  | .enter | .loop | .waiting _ | .posting _ => true
  | _ => false

/-- The process closes the end. -/
def closes (writable : Bool) : PipePc → Bool
  | .closeEnter w | .closeFlag w | .closePost w | .closeLeave w => w == writable
  | _ => false

end PipePc

/-- The call is one of `pipeWrite`. -/
def PipeCall.writes : PipeCall → Bool
  | .write .. => true
  | .read .. => false

/-- A pipe with its locks, and the processes that use it. -/
structure PipeThreads where
  bytes : PipeState
  /-- the process that has `pi->lock` -/
  lock : Option ℕ
  /-- `wlock` at `true`, `rlock` at `false` -/
  sems : Bool → SemState
  pc : ℕ → PipePc

/-- A process calls a function, or goes on with the one it has called. -/
inductive PipeAction
  | write (p : ℕ) (addr : ℕ → UInt8) (n : ℤ)
  | read (p : ℕ) (n : ℤ)
  | close (p : ℕ) (writable : Bool)
  | run (p : ℕ)

namespace PipeThreads

def goto (s : PipeThreads) (p : ℕ) (pc : PipePc) : PipeThreads :=
  { s with pc := Function.update s.pc p pc }

/-- `pipeWrite` or `pipeRead` is called. -/
def call (s : PipeThreads) (p : ℕ) (l : PipeStep) : Option PipeThreads :=
  if s.pc p = .out then (s.bytes.step l).map fun bytes => { s.goto p .enter with bytes := bytes }
  else none

/-- `_acquire_spinlock(&pi->lock)`; a process that spins takes no step. -/
def acquire (s : PipeThreads) (p : ℕ) (pc : PipePc) : Option PipeThreads :=
  if s.lock = none then some { s.goto p pc with lock := some p } else none

/-- `wait_sem` up to the point where it returns or sleeps. -/
def waitSem (s : PipeThreads) (p : ℕ) (w : Bool) : Option PipeThreads :=
  ((s.sems w).step (.wait p true)).map fun sem =>
    { s.goto p (if sem.pc p = .outside then .loop else .waiting w) with
      sems := Function.update s.sems w sem }

/-- `post_all_sem` -/
def postAll (s : PipeThreads) (p : ℕ) (w : Bool) (pc : PipePc) : Option PipeThreads :=
  ((s.sems w).step .postAll).map fun sem =>
    { s.goto p pc with sems := Function.update s.sems w sem }

/-- `_release_spinlock(&pi->lock)` -/
def release (s : PipeThreads) (p : ℕ) : PipeThreads := { s.goto p .out with lock := none }

/-- A turn of the loop of a call. -/
def turn (s : PipeThreads) (p : ℕ) (call : PipeCall) : Option PipeThreads :=
  match s.bytes.pipe.turn call with
  | .wait => s.waitSem p call.writes
  | .finish _ => (s.bytes.step (.turn p)).map fun bytes => { s.goto p .leaving with bytes := bytes }
  | .moved .. => (s.bytes.step (.turn p)).map fun bytes =>
    -- a writer wakes the readers, and a reader the writers
    { s.goto p (.posting !call.writes) with bytes := bytes }

/-- The next section of a process. -/
def run (s : PipeThreads) (p : ℕ) : Option PipeThreads :=
  match s.pc p with
  | .out => none
  | .enter => s.acquire p .loop
  | .loop => (s.bytes.call p).bind (s.turn p)
  | .waiting w => ((s.sems w).step (.resume p)).map fun sem =>
    { s.goto p .loop with sems := Function.update s.sems w sem }
  | .posting w => s.postAll p w .loop
  | .leaving => some (s.release p)
  | .closeEnter w => s.acquire p (.closeFlag w)
  | .closeFlag w => (s.bytes.step (.close w)).map fun bytes =>
    { s.goto p (.closePost w) with bytes := bytes }
  | .closePost w => s.postAll p (!w) (.closeLeave w)
  | .closeLeave _ => some (s.release p)

def step (s : PipeThreads) : PipeAction → Option PipeThreads
  | .write p addr n => s.call p (.write p addr n)
  | .read p n => s.call p (.read p n)
  | .close p writable => if s.pc p = .out then some (s.goto p (.closeEnter writable)) else none
  | .run p => s.run p

/-- Some process that is in one of the functions can go on. -/
def CanStep (s : PipeThreads) : Prop := ∃ p, (s.run p).isSome = true

/-- The process has called `pipeWrite` (`w`) or `pipeRead`, or closes that end. -/
def AtEnd (s : PipeThreads) (w : Bool) (p : ℕ) : Prop :=
  (∃ call, s.bytes.call p = some call ∧ call.writes = w) ∨ (s.pc p).closes w = true

/-- The state is not stuck: when a process waits and another one is at the other end,
somebody can go on, and nobody sleeps with `pi->lock`. -/
structure Progress (s : PipeThreads) : Prop where
  serve : ∀ w p q, s.pc p = .waiting w → s.AtEnd (!w) q → s.CanStep
  awake : ∀ p, s.lock = some p → ∀ w alertable, (s.sems w).pc p ≠ .asleep alertable

/-- The loop of the call finds the pipe full and the read end open, or empty and the
write end open. -/
def Blocks (pi : Pipe) : PipeCall → Prop
  | .write _ n i => (i : ℤ) < n ∧ pi.full = true ∧ pi.readopen = true
  | .read n got => (got.length : ℤ) < n ∧ pi.empty = true ∧ pi.writeopen = true

/-- No turn is taken by a call that finds the pipe so. -/
def Unblocked (s : PipeThreads) : PipeAction → Prop
  | .run p => s.pc p = .loop → ∀ call ∈ s.bytes.call p, ¬ Blocks s.bytes.pipe call
  | _ => True

end PipeThreads

/-- A new pipe and any number of processes. -/
def pipeThreadSystem : System PipeThreads PipeAction where
  init s := pipeSystem.init s.bytes ∧ s.lock = none ∧ (∀ w, (semSystem 0).init (s.sems w)) ∧
    ∀ p, s.pc p = .out
  step := PipeThreads.step

namespace PipeThreads

variable {s s' : PipeThreads} {l : PipeAction} {p q : ℕ}

/-- A loop waits exactly when it blocks. -/
theorem turn_eq_wait_iff {pi : Pipe} {call : PipeCall} :
    pi.turn call = .wait ↔ Blocks pi call := by
  cases call with
  | write addr n i =>
    simp only [Pipe.turn, Blocks]
    split_ifs <;> simp_all
  | read n got =>
    simp only [Pipe.turn, Blocks]
    split_ifs <;> simp_all

instance (pi : Pipe) (call : PipeCall) : Decidable (Blocks pi call) := by
  cases call <;> unfold Blocks <;> infer_instance

instance (s : PipeThreads) (l : PipeAction) : Decidable (s.Unblocked l) := by
  cases l with
  | run p =>
    unfold Unblocked
    infer_instance
  | _ => exact inferInstanceAs (Decidable True)

/-! ### The invariant -/

/-- The lock, the semaphores, the calls and the places agree. -/
structure Inv (s : PipeThreads) : Prop where
  lock : ∀ p, s.lock = some p ↔ (s.pc p).holds = true
  sem : ∀ w, (s.sems w).Inv 0
  /-- `post_all_sem` leaves no credit -/
  val : ∀ w, (s.sems w).sem.val ≤ 0
  waiting : ∀ w p, s.pc p = .waiting w ↔ (s.sems w).pc p ≠ .outside
  call : ∀ p, (s.bytes.call p).isSome = (s.pc p).inCall

theorem inv_init (h : pipeThreadSystem.init s) : s.Inv := by
  obtain ⟨hbytes, hlock, hsem, hpc⟩ := h
  obtain ⟨-, -, -, -, hcall, -⟩ := hbytes
  refine ⟨fun p => ?_, fun w => SemState.inv_init (hsem w) (le_refl 0), fun w => ?_,
    fun w p => ?_, fun p => ?_⟩
  · rw [hlock, hpc]
    exact iff_of_false (by simp) (by simp [PipePc.holds])
  · rw [(hsem w).1]
    exact le_refl 0
  · rw [hpc, (hsem w).2.1]
    simp
  · rw [hcall, hpc]
    rfl

/-- A section of `p` concerns only `p`. -/
theorem inv_move (h : s.Inv) {c : PipePc} {bytes : PipeState} {lock : Option ℕ}
    {sems : Bool → SemState}
    (hlock : ∀ q, q ≠ p → (lock = some q ↔ s.lock = some q))
    (hlock' : lock = some p ↔ c.holds = true)
    (hsem : ∀ w, (sems w).Inv 0 ∧ (sems w).sem.val ≤ 0)
    (hwaiting : ∀ w q, q ≠ p → ((sems w).pc q = .outside ↔ (s.sems w).pc q = .outside))
    (hwaiting' : ∀ w, c = .waiting w ↔ (sems w).pc p ≠ .outside)
    (hcall : ∀ q, q ≠ p → bytes.call q = s.bytes.call q)
    (hcall' : (bytes.call p).isSome = c.inCall) :
    (⟨bytes, lock, sems, Function.update s.pc p c⟩ : PipeThreads).Inv := by
  refine ⟨fun q => ?_, fun w => (hsem w).1, fun w => (hsem w).2, fun w q => ?_, fun q => ?_⟩
  · by_cases hq : q = p
    · subst hq
      simp only [Function.update_self]
      exact hlock'
    · simp only [Function.update_of_ne hq, hlock q hq]
      exact h.lock q
  · by_cases hq : q = p
    · subst hq
      simp only [Function.update_self]
      exact hwaiting' w
    · simp only [Function.update_of_ne hq, ne_eq, hwaiting w q hq]
      exact h.waiting w q
  · by_cases hq : q = p
    · subst hq
      simp only [Function.update_self]
      exact hcall'
    · simp only [Function.update_of_ne hq, hcall q hq]
      exact h.call q

/-- Who is not in `wait_sem` is on no list. -/
theorem Inv.outside (h : s.Inv) (hp : ∀ w, s.pc p ≠ .waiting w) (w : Bool) :
    (s.sems w).pc p = .outside := by
  by_contra hne
  exact hp w ((h.waiting w p).mpr hne)

/-- A section that touches neither the lock nor a semaphore. -/
theorem inv_bytes (h : s.Inv) {c : PipePc} {bytes : PipeState}
    (hholds : c.holds = (s.pc p).holds) (hp : ∀ w, s.pc p ≠ .waiting w) (hc : ∀ w, c ≠ .waiting w)
    (hcall : ∀ q, q ≠ p → bytes.call q = s.bytes.call q)
    (hcall' : (bytes.call p).isSome = c.inCall) : ({ s.goto p c with bytes := bytes }).Inv := by
  refine inv_move h (fun _ _ => Iff.rfl) ?_ (fun w => ⟨h.sem w, h.val w⟩) (fun _ _ _ => Iff.rfl)
    (fun w => ?_) hcall hcall'
  · rw [hholds]
    exact h.lock p
  · exact iff_of_false (hc w) (not_not.mpr (h.outside hp w))

/-- A section that ends with the lock in the hands of `p`, or free. -/
theorem inv_lock (h : s.Inv) {c : PipePc} {lock : Option ℕ}
    (hlock : ∀ q, q ≠ p → (lock = some q ↔ s.lock = some q))
    (hlock' : lock = some p ↔ c.holds = true) (hp : ∀ w, s.pc p ≠ .waiting w)
    (hc : ∀ w, c ≠ .waiting w) (hcall : c.inCall = (s.pc p).inCall) :
    ({ s.goto p c with lock := lock }).Inv := by
  refine inv_move h hlock hlock' (fun w => ⟨h.sem w, h.val w⟩) (fun _ _ _ => Iff.rfl)
    (fun w => ?_) (fun _ _ => rfl) ?_
  · exact iff_of_false (hc w) (not_not.mpr (h.outside hp w))
  · rw [hcall]
    exact h.call p

theorem inv_acquire (h : s.Inv) {c : PipePc} (hc : c.holds = true) (hwait : ∀ w, c ≠ .waiting w)
    (hp : ∀ w, s.pc p ≠ .waiting w) (hcall : c.inCall = (s.pc p).inCall)
    (hs : s.acquire p c = some s') : s'.Inv := by
  unfold acquire at hs
  split at hs
  · rename_i hnone
    cases hs
    refine inv_lock h (fun q hq => ?_) (iff_of_true rfl hc) hp hwait hcall
    rw [hnone, Option.some_inj]
    exact iff_of_false (Ne.symm hq) (by simp)
  · cases hs

theorem inv_release (h : s.Inv) (hlock : s.lock = some p) (hp : ∀ w, s.pc p ≠ .waiting w)
    (hcall : (s.pc p).inCall = false) : (s.release p).Inv := by
  refine inv_lock h (fun q hq => ?_) (iff_of_false (by simp) (by simp [PipePc.holds])) hp
    (by simp) hcall.symm
  rw [hlock, Option.some_inj]
  exact iff_of_false (by simp) (Ne.symm hq)

/-- A section that changes one semaphore. -/
theorem inv_sems (h : s.Inv) {c : PipePc} {w : Bool} {sem : SemState} (hsem : sem.Inv 0)
    (hval : sem.sem.val ≤ 0) (hc : c.holds = (s.pc p).holds)
    (hcall : c.inCall = (s.pc p).inCall)
    (hother : ∀ q, q ≠ p → (sem.pc q = .outside ↔ (s.sems w).pc q = .outside))
    (hwaiting : ∀ w', c = .waiting w' ↔ w' = w ∧ sem.pc p ≠ .outside)
    (hp : ∀ w', w' ≠ w → s.pc p ≠ .waiting w') :
    ({ s.goto p c with sems := Function.update s.sems w sem }).Inv := by
  refine inv_move h (fun _ _ => Iff.rfl) ?_ (fun w' => ?_) (fun w' q hq => ?_) (fun w' => ?_)
    (fun _ _ => rfl) ?_
  · rw [hc]
    exact h.lock p
  · by_cases hw : w' = w
    · subst hw
      rw [Function.update_self]
      exact ⟨hsem, hval⟩
    · rw [Function.update_of_ne hw]
      exact ⟨h.sem w', h.val w'⟩
  · by_cases hw : w' = w
    · subst hw
      rw [Function.update_self]
      exact hother q hq
    · rw [Function.update_of_ne hw]
  · rw [hwaiting]
    by_cases hw : w' = w
    · subst hw
      rw [Function.update_self]
      exact ⟨fun hand => hand.2, fun hne => ⟨rfl, hne⟩⟩
    · rw [Function.update_of_ne hw]
      exact iff_of_false (fun hand => hw hand.1) fun hne => hp w' hw ((h.waiting w' p).mpr hne)
  · rw [hcall]
    exact h.call p

/-- `wait_sem` finds no credit, so the process sleeps. -/
theorem waitSem_eq (h : s.Inv) (hp : ∀ w, s.pc p ≠ .waiting w) (w : Bool) :
    s.waitSem p w = some ({ s.goto p (.waiting w) with
      sems := Function.update s.sems w ((s.sems w).wait p true) }) ∧
    ((s.sems w).wait p true).sem.val ≤ 0 ∧
    ((s.sems w).wait p true).pc = Function.update (s.sems w).pc p (.asleep true) := by
  have hneg : ¬ 0 ≤ (s.sems w).sem.val - 1 := by
    have hval := h.val w
    omega
  have hpc : ((s.sems w).wait p true).pc = Function.update (s.sems w).pc p (.asleep true) := by
    simp only [SemState.wait, Semaphore.wait, if_neg hneg, Bool.false_eq_true, if_false]
  refine ⟨?_, ?_, hpc⟩
  · simp only [waitSem, SemState.step, if_pos (h.outside hp w), Option.map_some, hpc,
      Function.update_self, reduceCtorEq, if_false]
  · simp only [SemState.wait, Semaphore.wait, if_neg hneg, Bool.false_eq_true, if_false]
    omega

theorem inv_waitSem (h : s.Inv) (hp : s.pc p = .loop) {w : Bool} (hs : s.waitSem p w = some s') :
    s'.Inv := by
  have hnot : ∀ w, s.pc p ≠ .waiting w := by simp [hp]
  obtain ⟨heq, hval, hpc⟩ := waitSem_eq h hnot w
  rw [heq] at hs
  cases hs
  refine inv_sems h (SemState.inv_wait (h.sem w) (h.outside hnot w)) hval (by rw [hp]; rfl)
    (by rw [hp]; rfl) (fun q hq => ?_) (fun w' => ?_) fun w' _ => hnot w'
  · rw [hpc, Function.update_of_ne hq]
  · rw [hpc, Function.update_self]
    simp [eq_comm]

/-- `post_all_sem` lets everybody on the list go on. -/
theorem inv_postAll (h : s.Inv) {w : Bool} {c : PipePc} (hp : ∀ w, s.pc p ≠ .waiting w)
    (hwait : ∀ w, c ≠ .waiting w) (hc : c.holds = (s.pc p).holds)
    (hcall : c.inCall = (s.pc p).inCall) (hs : s.postAll p w c = some s') : s'.Inv := by
  obtain ⟨sem, hsem, rfl⟩ := Option.map_eq_some_iff.mp hs
  obtain ⟨u, hu, hinv, hafter, hin, hout⟩ := SemState.postAllSem_eq (h.sem w)
  obtain rfl : u = sem := by
    rw [SemState.step, hu] at hsem
    exact Option.some.inj hsem
  have houtside : ∀ q, u.pc q = .outside ↔ (s.sems w).pc q = .outside := by
    intro q
    by_cases hq : q ∈ (s.sems w).sem.sleeplist
    · rw [(hin q hq).1]
      exact iff_of_false (by simp) ((h.sem w).queued q hq).1
    · rw [(hout q hq).1]
  refine inv_sems h hinv ?_ hc hcall (fun q _ => houtside q) (fun w' => ?_) fun w' _ => hp w'
  · rw [hafter]
    exact max_le (h.val w) (le_refl 0)
  · refine iff_of_false (hwait w') ?_
    rintro ⟨-, hne⟩
    exact hne ((houtside p).mpr (h.outside hp w))

/-- A process that has been woken leaves `wait_sem`. -/
theorem inv_resume (h : s.Inv) {w : Bool} {sem : SemState} (hp : s.pc p = .waiting w)
    (hs : (s.sems w).step (.resume p) = some sem) :
    ({ s.goto p .loop with sems := Function.update s.sems w sem }).Inv := by
  have hsem := SemState.inv_step (h.sem w) hs
  have hval := h.val w
  simp only [SemState.step] at hs
  split at hs
  · -- whether it takes itself off the list or not
    have hres : sem.pc = Function.update (s.sems w).pc p .outside ∧ sem.sem.val ≤ 0 := by
      simp only [SemState.resume] at hs
      split_ifs at hs with hup hle
      · cases hs
        exact ⟨rfl, hval⟩
      · cases hs
        exact ⟨rfl, hle⟩
    refine inv_sems h hsem hres.2 (by rw [hp]; rfl) (by rw [hp]; rfl) (fun q hq => ?_)
      (fun w' => ?_) fun w' hw => ?_
    · rw [hres.1, Function.update_of_ne hq]
    · rw [hres.1, Function.update_self]
      simp
    · rw [hp]
      simpa using Ne.symm hw
  · cases hs

/-- The call of a process after a turn that does not wait. -/
theorem call_turn {bytes : PipeState} {call : PipeCall} (hcall : s.bytes.call p = some call)
    (hs : s.bytes.step (.turn p) = some bytes) :
    (∀ q, q ≠ p → bytes.call q = s.bytes.call q) ∧
    (∀ ret, s.bytes.pipe.turn call = .finish ret → bytes.call p = none) ∧
    ∀ c pi call', s.bytes.pipe.turn call = .moved c pi call' → bytes.call p = some call' := by
  rw [PipeState.step, hcall, Option.map_some, Option.some_inj] at hs
  subst hs
  cases s.bytes.pipe.turn call with
  | wait => exact ⟨fun q _ => rfl, by simp, by simp⟩
  | finish ret => exact ⟨fun q hq => Function.update_of_ne hq _ _, by simp, by simp⟩
  | moved c pi call' =>
    refine ⟨fun q hq => ?_, by simp, fun _ _ _ hmoved => ?_⟩
    · exact Function.update_of_ne hq _ _
    · cases hmoved
      exact Function.update_self _ _ _

theorem inv_turn (h : s.Inv) (hp : s.pc p = .loop) {call : PipeCall}
    (hcall : s.bytes.call p = some call) (hs : s.turn p call = some s') : s'.Inv := by
  have hnot : ∀ w, s.pc p ≠ .waiting w := by simp [hp]
  unfold turn at hs
  split at hs
  · exact inv_waitSem h hp hs
  · rename_i ret hturn
    obtain ⟨bytes, hbytes, rfl⟩ := Option.map_eq_some_iff.mp hs
    obtain ⟨hother, hfinish, -⟩ := call_turn hcall hbytes
    exact inv_bytes h (by rw [hp]; rfl) hnot (by simp) hother (by rw [hfinish ret hturn]; rfl)
  · rename_i c pi call' hturn
    obtain ⟨bytes, hbytes, rfl⟩ := Option.map_eq_some_iff.mp hs
    obtain ⟨hother, -, hmoved⟩ := call_turn hcall hbytes
    exact inv_bytes h (by rw [hp]; rfl) hnot (by simp) hother (by rw [hmoved _ _ _ hturn]; rfl)

/-- A call begins. -/
theorem inv_call (h : s.Inv) (call : PipeCall) {l : PipeStep}
    (hl : s.bytes.step l = s.bytes.enter p call) (hs : s.call p l = some s') : s'.Inv := by
  unfold PipeThreads.call at hs
  split at hs
  · rename_i hp
    obtain ⟨bytes, hbytes, rfl⟩ := Option.map_eq_some_iff.mp hs
    rw [hl, PipeState.enter] at hbytes
    split at hbytes
    · cases hbytes
      refine inv_bytes h (by rw [hp]; rfl) (by simp [hp]) (by simp) (fun q hq => ?_) ?_
      · exact Function.update_of_ne hq _ _
      · simp [PipePc.inCall]
    · cases hbytes
  · cases hs

/-- Every section keeps the invariant. -/
theorem inv_run (h : s.Inv) (hs : s.run p = some s') : s'.Inv := by
  unfold run at hs
  split at hs
  · cases hs
  · rename_i hp
    exact inv_acquire h rfl (by simp) (by simp [hp]) (by rw [hp]; rfl) hs
  · rename_i hp
    obtain ⟨call, hcall, hs⟩ := Option.bind_eq_some_iff.mp hs
    exact inv_turn h hp hcall hs
  · rename_i w hp
    obtain ⟨sem, hsem, rfl⟩ := Option.map_eq_some_iff.mp hs
    exact inv_resume h hp hsem
  · rename_i w hp
    exact inv_postAll h (by simp [hp]) (by simp) (by rw [hp]; rfl) (by rw [hp]; rfl) hs
  · rename_i hp
    cases hs
    exact inv_release h ((h.lock p).mpr (by rw [hp]; rfl)) (by simp [hp]) (by rw [hp]; rfl)
  · rename_i w hp
    exact inv_acquire h rfl (by simp) (by simp [hp]) (by rw [hp]; rfl) hs
  · rename_i w hp
    obtain ⟨bytes, hbytes, rfl⟩ := Option.map_eq_some_iff.mp hs
    cases hbytes
    refine inv_bytes h (by rw [hp]; rfl) (by simp [hp]) (by simp) (fun _ _ => rfl) ?_
    rw [h.call p, hp]
    rfl
  · rename_i w hp
    exact inv_postAll h (by simp [hp]) (by simp) (by rw [hp]; rfl) (by rw [hp]; rfl) hs
  · rename_i w hp
    cases hs
    exact inv_release h ((h.lock p).mpr (by rw [hp]; rfl)) (by simp [hp]) (by rw [hp]; rfl)

theorem inv_step (h : s.Inv) (hs : s.step l = some s') : s'.Inv := by
  cases l with
  | write p addr n => exact inv_call h (.write addr n 0) rfl hs
  | read p n => exact inv_call h (.read n []) rfl hs
  | close p writable =>
    simp only [step] at hs
    split at hs
    · rename_i hp
      cases hs
      refine inv_bytes h (by rw [hp]; rfl) (by simp [hp]) (by simp) (fun _ _ => rfl) ?_
      rw [h.call p, hp]
      rfl
    · cases hs
  | run p => exact inv_run h hs

theorem inv_of_reachable (h : pipeThreadSystem.Reachable (fun _ _ => True) s) : s.Inv :=
  h.induction (fun _ => inv_init) fun _ _ _ hi _ hs => inv_step hi hs

/-! ### Who can run -/

/-- The process with the lock goes on, unless it sleeps. -/
theorem run_isSome (h : s.Inv) (hp : (s.pc p).holds = true) (hwait : ∀ w, s.pc p ≠ .waiting w) :
    (s.run p).isSome = true := by
  have hpost : ∀ w c, (s.postAll p w c).isSome = true := by
    intro w c
    obtain ⟨u, hu, -⟩ := SemState.postAllSem_eq (h.sem w)
    simp [postAll, SemState.step, hu]
  have hcall := h.call p
  unfold run
  cases hpc : s.pc p with
  | loop =>
    rw [hpc] at hcall
    obtain ⟨call, hcall⟩ := Option.isSome_iff_exists.mp hcall
    simp only [hcall, Option.bind_some, turn]
    split
    · rw [(waitSem_eq h hwait call.writes).1]
      rfl
    · simp [PipeState.step, hcall]
    · simp [PipeState.step, hcall]
  | waiting w => exact absurd hpc (hwait w)
  | posting w => exact hpost w .loop
  | closePost w => exact hpost (!w) (.closeLeave w)
  | closeFlag w => rfl
  | leaving => rfl
  | closeLeave w => rfl
  | _ =>
    rw [hpc] at hp
    cases hp

/-- When nobody waits, a process that is in one of the functions does not keep the
others from running: whoever has the lock goes on, and a free lock is taken. -/
theorem canStep (h : s.Inv) (hwait : ∀ q w, s.pc q ≠ .waiting w) (hp : s.pc p ≠ .out) :
    s.CanStep := by
  cases hlock : s.lock with
  | some q => exact ⟨q, run_isSome h ((h.lock q).mp hlock) (hwait q)⟩
  | none =>
    refine ⟨p, ?_⟩
    have hholds : (s.pc p).holds = false := by
      rw [← Bool.not_eq_true, ← h.lock, hlock]
      simp
    unfold run
    cases hpc : s.pc p with
    | out => exact absurd hpc hp
    | enter => simp [acquire, hlock]
    | closeEnter w => simp [acquire, hlock]
    | _ =>
      rw [hpc] at hholds
      cases hholds

/-- Nobody runs past a process that sleeps with the lock. -/
theorem not_canStep (h : s.Inv) {w alertable : Bool} (hlock : s.lock = some p)
    (hp : (s.sems w).pc p = .asleep alertable) : ¬ s.CanStep := by
  rintro ⟨q, hq⟩
  have hwait : s.pc p = .waiting w := (h.waiting w p).mpr (by simp [hp])
  by_cases hqp : q = p
  · subst hqp
    simp [run, hwait, SemState.step, hp] at hq
  · have hholds : (s.pc q).holds = false := by
      rw [← Bool.not_eq_true, ← h.lock, hlock, Option.some_inj]
      exact Ne.symm hqp
    unfold run at hq
    cases hpc : s.pc q with
    | out => simp [hpc] at hq
    | enter => simp [hpc, acquire, hlock] at hq
    | closeEnter w => simp [hpc, acquire, hlock] at hq
    | _ =>
      rw [hpc] at hholds
      cases hholds

/-- What a step does to the places and to the bytes: one process goes to a place `c`,
which is a wait only after a turn that blocks, and the bytes take a step or none. -/
structure Moves (s s' : PipeThreads) (l : PipeAction) (p : ℕ) (c : PipePc) : Prop where
  pc : s'.pc = Function.update s.pc p c
  bytes : s'.bytes = s.bytes ∨ ∃ l', s.bytes.step l' = some s'.bytes
  wait : s.Unblocked l → ∀ w, c ≠ .waiting w

theorem moves_bytes {c : PipePc} {l' : PipeStep} (hc : ∀ w, c ≠ .waiting w)
    (hs : (s.bytes.step l').map (fun bytes => { s.goto p c with bytes := bytes }) = some s') :
    s.Moves s' l p c := by
  obtain ⟨bytes, hbytes, rfl⟩ := Option.map_eq_some_iff.mp hs
  exact ⟨rfl, .inr ⟨l', hbytes⟩, fun _ => hc⟩

theorem moves_sem {c : PipePc} {w : Bool} {sem : Option SemState} (hc : ∀ w, c ≠ .waiting w)
    (hs : sem.map (fun sem => { s.goto p c with sems := Function.update s.sems w sem })
      = some s') : s.Moves s' l p c := by
  obtain ⟨sem, -, rfl⟩ := Option.map_eq_some_iff.mp hs
  exact ⟨rfl, .inl rfl, fun _ => hc⟩

theorem moves_acquire {c : PipePc} (hc : ∀ w, c ≠ .waiting w) (hs : s.acquire p c = some s') :
    s.Moves s' l p c := by
  unfold acquire at hs
  split at hs
  · cases hs
    exact ⟨rfl, .inl rfl, fun _ => hc⟩
  · cases hs

theorem moves_call {l' : PipeStep} (hs : s.call p l' = some s') : s.Moves s' l p .enter := by
  unfold call at hs
  split at hs
  · exact moves_bytes (by simp) hs
  · cases hs

theorem moves_turn {call : PipeCall} (hp : s.pc p = .loop) (hcall : s.bytes.call p = some call)
    (hs : s.turn p call = some s') : ∃ c, s.Moves s' (.run p) p c := by
  unfold turn at hs
  split at hs
  · rename_i hturn
    obtain ⟨sem, -, rfl⟩ := Option.map_eq_some_iff.mp hs
    exact ⟨_, rfl, .inl rfl, fun hl => absurd (turn_eq_wait_iff.mp hturn) (hl hp call hcall)⟩
  · exact ⟨_, moves_bytes (by simp) hs⟩
  · exact ⟨_, moves_bytes (by simp) hs⟩

theorem moves_run (hs : s.run p = some s') : ∃ c, s.Moves s' (.run p) p c := by
  unfold run at hs
  split at hs
  · cases hs
  · exact ⟨_, moves_acquire (by simp) hs⟩
  · rename_i hp
    obtain ⟨call, hcall, hs⟩ := Option.bind_eq_some_iff.mp hs
    exact moves_turn hp hcall hs
  · exact ⟨_, moves_sem (by simp) hs⟩
  · exact ⟨_, moves_sem (by simp) hs⟩
  · cases hs
    exact ⟨_, rfl, .inl rfl, by simp⟩
  · exact ⟨_, moves_acquire (by simp) hs⟩
  · exact ⟨_, moves_bytes (by simp) hs⟩
  · exact ⟨_, moves_sem (by simp) hs⟩
  · cases hs
    exact ⟨_, rfl, .inl rfl, by simp⟩

theorem moves_step (hs : s.step l = some s') : ∃ p c, s.Moves s' l p c := by
  cases l with
  | write p addr n => exact ⟨p, _, moves_call hs⟩
  | read p n => exact ⟨p, _, moves_call hs⟩
  | close p writable =>
    simp only [step] at hs
    split at hs
    · cases hs
      exact ⟨p, _, rfl, .inl rfl, by simp⟩
    · cases hs
  | run p => exact ⟨p, moves_run hs⟩

/-- In a run without a turn that blocks nobody waits. -/
theorem not_waiting (h : pipeThreadSystem.Reachable Unblocked s) : ∀ p w, s.pc p ≠ .waiting w := by
  refine h.induction (I := fun s => ∀ p w, s.pc p ≠ .waiting w)
    (fun s (h : pipeThreadSystem.init s) p w => ?_) fun s l s' hi hl hs q w => ?_
  · rw [h.2.2.2 p]
    simp
  · obtain ⟨p, c, hmoves⟩ := moves_step hs
    rw [hmoves.pc]
    by_cases hq : q = p
    · subst hq
      rw [Function.update_self]
      exact hmoves.wait hl w
    · rw [Function.update_of_ne hq]
      exact hi q w

/-- A turn that blocks puts the process to sleep with the lock in its hands. -/
theorem asleep_of_blocked (h : s.Inv) (hl : ¬ s.Unblocked l) (hs : s.step l = some s') :
    ∃ p w, s'.lock = some p ∧ (s'.sems w).pc p = .asleep true := by
  cases l with
  | run p =>
    simp only [Unblocked, not_forall, not_not] at hl
    obtain ⟨hp, call, hcall, hblocks⟩ := hl
    have hnot : ∀ w, s.pc p ≠ .waiting w := by simp [hp]
    obtain ⟨heq, -, hpc⟩ := waitSem_eq h hnot call.writes
    rw [Option.mem_def] at hcall
    simp only [step, run, hp, hcall, Option.bind_some, turn, turn_eq_wait_iff.mpr hblocks,
      heq] at hs
    cases hs
    refine ⟨p, call.writes, ?_, ?_⟩
    · show s.lock = some p
      rw [h.lock p, hp]
      rfl
    · simp only [Function.update_self, hpc]
  | _ => exact absurd trivial hl

/-- **Refinement.**  The bytes go as in `pipeSystem`. -/
theorem bytes_reachable (h : pipeThreadSystem.Reachable (fun _ _ => True) s) :
    pipeSystem.Reachable (fun _ _ => True) s.bytes := by
  refine h.induction (I := fun s => pipeSystem.Reachable (fun _ _ => True) s.bytes)
    (fun s (h : pipeThreadSystem.init s) => .of_init h.1) fun s l s' hi _ hs => ?_
  obtain ⟨p, c, hmoves⟩ := moves_step hs
  rcases hmoves.bytes with heq | ⟨l', hl'⟩
  · rw [heq]
    exact hi
  · exact hi.step trivial hl'

end PipeThreads

/-- **Progress in a pipe**: as long as no turn finds the pipe full or empty with the other
end open, no state is stuck; and a turn that does leads to a state that is. -/
theorem pipe_progress (s : PipeThreads)
    (h : pipeThreadSystem.Reachable (fun _ _ => True) s) :
    (pipeThreadSystem.Reachable PipeThreads.Unblocked s →
      s.Progress ∧ ((∃ p, s.pc p ≠ .out) → s.CanStep)) ∧
    ∀ l s', ¬ s.Unblocked l → pipeThreadSystem.step s l = some s' → ¬ s'.Progress := by
  have hi := PipeThreads.inv_of_reachable h
  constructor
  · intro hun
    have hwait := PipeThreads.not_waiting hun
    refine ⟨⟨fun w p q hp _ => absurd hp (hwait p w), fun p _ w alertable hp => ?_⟩, ?_⟩
    · exact hwait p w ((hi.waiting w p).mpr (by simp [hp]))
    · rintro ⟨p, hp⟩
      exact PipeThreads.canStep hi hwait hp
  · intro l s' hl hs hprogress
    obtain ⟨p, w, hlock, hp⟩ := PipeThreads.asleep_of_blocked hi hl hs
    exact hprogress.awake p hlock w true hp

namespace PipeThreads

/-- A new pipe, before any call. -/
def new : PipeThreads := ⟨.new, none, fun _ => .new 0, fun _ => .out⟩

theorem init_new : pipeThreadSystem.init new :=
  ⟨PipeState.init_new, rfl, fun _ => SemState.init_new 0, fun _ => rfl⟩

end PipeThreads

/-- A writer has stored two bytes while a reader waits for the lock. -/
theorem pipe_progress_two : ∃ s : PipeThreads, s.bytes.stored = [7, 8] ∧ s.lock = some 0 ∧
    s.Progress ∧ s.CanStep := by
  have hrun : (pipeThreadSystem.exec PipeThreads.Unblocked .new
      [.write 0 (fun i => UInt8.ofNat (i + 7)) 3, .run 0, .read 1 2, .run 0, .run 0, .run 0]).map
      (fun s => (s.bytes.stored, s.lock)) = some ([7, 8], some 0) := by
    decide
  obtain ⟨s, hs, heq⟩ := Option.map_eq_some_iff.mp hrun
  obtain ⟨hstored, hlock⟩ := Prod.mk.inj heq
  have hreach : pipeThreadSystem.Reachable PipeThreads.Unblocked s :=
    ⟨_, PipeThreads.init_new, System.leads_of_exec hs⟩
  have hall : pipeThreadSystem.Reachable (fun _ _ => True) s := hreach.mono fun _ _ _ => trivial
  obtain ⟨hprogress, hstep⟩ := (pipe_progress s hall).1 hreach
  refine ⟨s, hstored, hlock, hprogress, hstep ⟨0, fun hout => ?_⟩⟩
  have hholds := ((PipeThreads.inv_of_reachable hall).lock 0).mp hlock
  rw [hout] at hholds
  cases hholds

/-- **A reader that comes first keeps the writer out**: it sleeps with `pi->lock`, which
the writer needs, so neither of them takes another step. -/
theorem pipe_stuck : ∃ s, pipeThreadSystem.Reachable (fun _ _ => True) s ∧
    s.pc 0 = .waiting false ∧ s.AtEnd true 1 ∧ ¬ s.CanStep ∧ ¬ s.Progress := by
  have hrun : (pipeThreadSystem.exec (fun _ _ => True) .new
      [.read 0 1, .run 0, .run 0, .write 1 (fun _ => 7) 1]).map
      (fun s => (s.lock, (s.sems false).pc 0, (s.bytes.call 1).map PipeCall.writes))
      = some (some 0, .asleep true, some true) := by
    decide
  obtain ⟨s, hs, heq⟩ := Option.map_eq_some_iff.mp hrun
  obtain ⟨hlock, heq⟩ := Prod.mk.inj heq
  obtain ⟨hpc, hcall⟩ := Prod.mk.inj heq
  have hreach : pipeThreadSystem.Reachable (fun _ _ => True) s :=
    ⟨_, PipeThreads.init_new, System.leads_of_exec hs⟩
  have hi := PipeThreads.inv_of_reachable hreach
  have hwait : s.pc 0 = .waiting false := (hi.waiting false 0).mpr (by simp [hpc])
  have hend : s.AtEnd true 1 := .inl (by simpa using hcall)
  have hstuck := PipeThreads.not_canStep hi hlock hpc
  exact ⟨s, hreach, hwait, hend, hstuck, fun hprogress =>
    hstuck (hprogress.serve false 0 1 hwait hend)⟩

end OsLab
