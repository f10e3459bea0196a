/-
`kill` and the processes that wait for a sleep lock of the file system.

`cache_acquire`, `cache_begin_op` and `inode_lock` assert the result of `acquire_sleeplock`,
but `acquire_sleeplock` is the alertable `wait_sem`, which returns `false` when the process has
been woken by `alert_proc`.

* `KillWaits.Sound` — no assertion has failed, and a wait that has ended has its permit exactly
  when it has returned `true`;
* `KillWaits.Spared` — a kill does not alert a process that is asleep in one of these waits;
* `kill_waits` — in these runs it is sound;
* `kill_panics` — a process that is alerted in such a wait and goes on makes the kernel panic,
  unless it has been given the lock in between.
-/
import OsLab.Fs.LogAdmission
import OsLab.Common.SemThreads

namespace OsLab

/-- The sleep locks of the file system. -/
inductive SleepLock
  | block (b : ℕ)
  | log
  | inode (i : ℕ)
  deriving DecidableEq, Repr

/-- Where a process is in the three functions. -/
inductive LockCall
  | out
  /-- in `acquire_sleeplock(0, &block->lock)` of `cache_acquire`, which may be called by
  `inode_lock` -/
  | acquire (b : ℕ) (inode : Option ℕ)
  /-- `cache_begin_op` has released `loglock` and has not yet called `acquire_sleeplock` -/
  | refused
  /-- in `acquire_sleeplock(0, &log.lock)` -/
  | beginOp
  /-- at the top of the loop of `cache_begin_op` -/
  | again
  /-- in `acquire_sleeplock(0, &inode->lock)` -/
  | inodeLock (i : ℕ)
  /-- `inode_lock`, before `cache->acquire` -/
  | fill (i : ℕ)
  /-- `inode_lock`, before `cache->release` -/
  | filled (b : ℕ)
  deriving DecidableEq, Repr

/-- The lock that the process waits for. -/
def LockCall.lock : LockCall → Option SleepLock
  | .acquire b _ => some (.block b)
  | .beginOp => some .log
  | .inodeLock i => some (.inode i)
  | _ => none

/-- The sleep locks, the log, and the processes. -/
structure KillWaits where
  sem : SleepLock → SemState
  log : LogState
  call : ℕ → LockCall
  /-- `inode->valid` -/
  valid : ℕ → Bool
  /-- the lock has been acquired by the process, and not released -/
  holds : ℕ → SleepLock → Bool
  killed : ℕ → Bool
  /-- a call of `kill` is about to alert the process -/
  kill : ℕ → Option ℕ
  /-- the last wait of the process: the lock, the ticket of the wait, and its result -/
  ended : ℕ → Option ((SleepLock × ℕ) × Bool)
  /-- an `ASSERT` has failed -/
  panicked : Bool

inductive KillWaitsStep
  /-- `cache_acquire` comes to the lock of a buffer -/
  | acquire (p b : ℕ)
  | inodeLock (p i : ℕ)
  /-- the section of `cache_begin_op` under `loglock` -/
  | check (p : ℕ)
  /-- `acquire_sleeplock(0, &log.lock)` -/
  | waitLog (p : ℕ)
  /-- `cache->acquire` in `inode_lock`, which comes to the lock of a buffer -/
  | fill (p b : ℕ)
  /-- the process goes on after `sched` -/
  | resume (p : ℕ)
  /-- `cache->release` in `inode_lock` -/
  | filled (p : ℕ)
  /-- `cache_release` or `inode_unlock` -/
  | release (p : ℕ) (l : SleepLock)
  | sync (c n : ℕ)
  | endOp (c : ℕ)
  | commit
  /-- call `k` of `kill` finds `p` and marks it -/
  | mark (k p : ℕ)
  | alert (k : ℕ)

namespace KillWaits

def setCall (s : KillWaits) (p : ℕ) (c : LockCall) : KillWaits :=
  { s with call := Function.update s.call p c }

def setSem (s : KillWaits) (l : SleepLock) (sem : SemState) : KillWaits :=
  { s with sem := Function.update s.sem l sem }

def setHolds (s : KillWaits) (p : ℕ) (l : SleepLock) (b : Bool) : KillWaits :=
  { s with holds := Function.update s.holds p (Function.update (s.holds p) l b) }

/-- The way on when `acquire_sleeplock` has returned `true`. -/
def acquired (s : KillWaits) (p : ℕ) : KillWaits :=
  match s.call p with
  | .acquire b none => (s.setHolds p (.block b) true).setCall p .out
  | .acquire b (some _) => (s.setHolds p (.block b) true).setCall p (.filled b)
  | .beginOp => s.setCall p .again
  | .inodeLock i =>
    let s := s.setHolds p (.inode i) true
    if s.valid i then s.setCall p .out
    else { s with valid := Function.update s.valid i true }.setCall p (.fill i)
  | _ => s

/-- The end of `acquire_sleeplock`, and the assertion on its result. -/
def finish (s : KillWaits) (p : ℕ) (l : SleepLock) (ret : Bool) : KillWaits :=
  let s := { s with ended := Function.update s.ended p (some ((l, (s.sem l).ticket p), ret)) }
  if ret then s.acquired p else { s with panicked := true }

/-- The call comes to its `acquire_sleeplock`, which returns or sleeps. -/
def wait (s : KillWaits) (p : ℕ) (c : LockCall) : Option KillWaits :=
  match c.lock with
  | none => none
  | some l =>
    ((s.sem l).step (.wait p true)).map fun sem =>
      let s := (s.setSem l sem).setCall p c
      if sem.pc p = .outside then s.finish p l true else s

def post (s : KillWaits) (l : SleepLock) : Option KillWaits :=
  (s.sem l).postSem.map (s.setSem l)

/-- `post_all_sem(&log.lock)` -/
def broadcast (s : KillWaits) : Option KillWaits :=
  (s.sem .log).postAllSem.map fun r => s.setSem .log r.2

def step (s : KillWaits) (l : KillWaitsStep) : Option KillWaits :=
  if s.panicked then none else
  match l with
  | .acquire p b => if s.call p = .out then s.wait p (.acquire b none) else none
  | .inodeLock p i => if s.call p = .out then s.wait p (.inodeLock i) else none
  | .check p =>
    if s.call p = .out ∨ s.call p = .again then
      match s.log.step (.beginOp p) with
      | some log => some ({ s with log := log }.setCall p .out)
      | none => some (s.setCall p .refused)
    else none
  | .waitLog p => if s.call p = .refused then s.wait p .beginOp else none
  | .fill p b =>
    match s.call p with
    | .fill i => s.wait p (.acquire b (some i))
    | _ => none
  | .resume p =>
    match (s.call p).lock with
    | none => none
    | some l =>
      ((s.sem l).step (.resume p)).map fun sem => (s.setSem l sem).finish p l ((s.sem l).up p)
  | .filled p =>
    match s.call p with
    | .filled b => (s.post (.block b)).map fun s =>
        (s.setHolds p (.block b) false).setCall p .out
    | _ => none
  | .release p l =>
    if s.call p = .out ∧ s.holds p l then (s.post l).map fun s => s.setHolds p l false else none
  | .sync c n => (s.log.step (.sync c n)).map fun log => { s with log := log }
  | .endOp c =>
    -- `committing` was clear, so it is set now exactly when `do_commit` is
    (s.log.step (.endOp c)).bind fun log =>
      if log.log.committing then some { s with log := log } else { s with log := log }.broadcast
  | .commit => (s.log.step .commit).bind fun log => { s with log := log }.broadcast
  | .mark k p =>
    if s.kill k = none then
      some { s with
        killed := Function.update s.killed p true
        kill := Function.update s.kill k (some p) }
    else none
  | .alert k =>
    match s.kill k with
    | some p => some { s with
        sem := fun l => (s.sem l).alert p
        kill := Function.update s.kill k none }
    | none => none

/-- No assertion has failed, and the permit has been given to a wait that has ended exactly
when it has returned `true`. -/
def Sound (s : KillWaits) : Prop :=
  s.panicked = false ∧ ∀ p l k ret, s.ended p = some ((l, k), ret) →
    (ret = true ↔ k ∈ (s.sem l).granted)

/-- The process is asleep in one of the waits. -/
def Asleep (s : KillWaits) (p : ℕ) : Prop :=
  ∃ l, (s.call p).lock = some l ∧ (s.sem l).pc p = .asleep true

instance (s : KillWaits) (p : ℕ) : Decidable (s.Asleep p) :=
  match h : (s.call p).lock with
  | none => .isFalse fun ⟨_, hl, _⟩ => by simp [h] at hl
  | some l => decidable_of_iff ((s.sem l).pc p = .asleep true) (by simp [Asleep, h])

/-- A kill alerts no process that is asleep in one of the waits. -/
def Spared (s : KillWaits) : KillWaitsStep → Prop
  | .alert k => ∀ p, s.kill k = some p → ¬s.Asleep p
  | _ => True

instance (s : KillWaits) (l : KillWaitsStep) : Decidable (s.Spared l) :=
  match l with
  | .alert k =>
    match h : s.kill k with
    | none => .isTrue fun _ hp => by simp [h] at hp
    | some p => decidable_of_iff (¬s.Asleep p) (by simp [Spared, h])
  | .acquire .. | .inodeLock .. | .check _ | .waitLog _ | .fill .. | .resume _ | .filled _
  | .release .. | .sync .. | .endOp _ | .commit | .mark .. => .isTrue trivial

end KillWaits

/-- Free sleep locks, an empty log, and processes outside of the file system. -/
def killWaitsSystem : System KillWaits KillWaitsStep where
  init s := (∀ l, (semSystem 1).init (s.sem l)) ∧ logSystem.init s.log ∧ (∀ p, s.call p = .out) ∧
    (∀ k, s.kill k = none) ∧ (∀ p, s.ended p = none) ∧ s.panicked = false
  step := KillWaits.step

namespace SemState

variable {s t u : SemState} {p q : ℕ}

/-- A process that is marked has been granted its ticket. -/
structure Given (s : SemState) : Prop where
  inv : s.Inv 1
  ticket : ∀ p, s.pc p ≠ .outside → s.up p = true → s.ticket p ∈ s.granted

/-- What posts do: tickets are granted, and who is made runnable has been marked. -/
structure Posts (s t : SemState) : Prop where
  given : t.Given
  grow : ∀ k ∈ s.granted, k ∈ t.granted
  outside : ∀ p, t.pc p = .outside ↔ s.pc p = .outside
  woken : ∀ p, t.pc p = .woken → s.pc p = .woken ∧ (s.up p = true → t.up p = true) ∨ t.up p = true

theorem Posts.trans (h : Posts s t) (h' : Posts t u) : Posts s u := by
  refine ⟨h'.given, fun k hk => h'.grow k (h.grow k hk), fun p => (h'.outside p).trans (h.outside p),
    fun p hp => ?_⟩
  rcases h'.woken p hp with ⟨hw, hup⟩ | hup
  · rcases h.woken p hw with ⟨hw', hup'⟩ | hup'
    · exact .inl ⟨hw', fun hs => hup (hup' hs)⟩
    · exact .inr (hup hup')
  · exact .inr hup

theorem Given.post (h : s.Given) (hs : s.postSem = some t) : Posts s t := by
  by_cases hnil : s.sem.sleeplist = []
  · obtain ⟨hpost, hinv⟩ := postSem_nil h.inv hnil
    rw [hpost] at hs
    cases hs
    exact ⟨⟨hinv, h.ticket⟩, fun k hk => hk, fun p => Iff.rfl, fun p hp => .inl ⟨hp, id⟩⟩
  · obtain ⟨l, q, hl⟩ : ∃ l q, s.sem.sleeplist = l ++ [q] :=
      ⟨_, _, (List.dropLast_append_getLast hnil).symm⟩
    obtain ⟨hpost, hinv⟩ := postSem_append h.inv hl
    rw [hpost] at hs
    cases hs
    have hq := h.inv.queued q (by rw [hl]; exact List.mem_append_right l List.mem_cons_self)
    refine ⟨⟨hinv, fun p hp hup => ?_⟩, fun k hk => List.mem_append_left _ hk, fun p => ?_,
      fun p hp => ?_⟩
    · by_cases hpq : p = q
      · subst hpq
        exact List.mem_append_right _ List.mem_cons_self
      · simp only [wakeLast, Function.update_of_ne hpq] at hp hup ⊢
        exact List.mem_append_left _ (h.ticket p hp hup)
    · by_cases hpq : p = q
      · subst hpq
        simp [wakeLast, hq.1]
      · simp only [wakeLast, Function.update_of_ne hpq]
    · by_cases hpq : p = q
      · subst hpq
        exact .inr (Function.update_self _ _ _)
      · simp only [wakeLast, Function.update_of_ne hpq] at hp ⊢
        exact .inl ⟨hp, id⟩

theorem Given.get (h : s.Given) : Posts s s.getSem.2 := by
  have hinv := inv_get h.inv
  unfold getSem at hinv ⊢
  split
  · rename_i hpos
    rw [if_pos hpos] at hinv
    exact ⟨⟨hinv, fun p hp hup => List.mem_append_left _ (h.ticket p hp hup)⟩,
      fun k hk => List.mem_append_left _ hk, fun p => Iff.rfl, fun p hp => .inl ⟨hp, id⟩⟩
  · exact ⟨h, fun k hk => hk, fun p => Iff.rfl, fun p hp => .inl ⟨hp, id⟩⟩

/-- `post_all_sem` is a number of posts and a `get_sem`. -/
theorem Given.postAllLoop {fuel : ℕ} {ret : ℤ} {r : ℤ × SemState} (h : s.Given)
    (hs : SemState.postAllLoop fuel ret s = some r) : Posts s r.2 := by
  induction fuel generalizing ret s with
  | zero => cases hs
  | succ fuel ih =>
    rw [SemState.postAllLoop] at hs
    split at hs
    · cases hs
    · rename_i t hpost
      have ht := h.post hpost
      split at hs
      · cases hs
        exact ht.trans ht.given.get
      · exact ht.trans (ih ht.given hs)

/-- A wait is granted at once, or the process sleeps. -/
theorem Given.wait (h : s.Given) (hp : s.pc p = .outside) :
    (s.wait p true).Given ∧ (∀ k ∈ s.granted, k ∈ (s.wait p true).granted) ∧
      (∀ q, q ≠ p → (s.wait p true).pc q = s.pc q ∧ (s.wait p true).up q = s.up q) ∧
      ((s.wait p true).pc p = .outside ∧ (s.wait p true).ticket p ∈ (s.wait p true).granted ∨
        (s.wait p true).pc p = .asleep true) := by
  have hinv : (s.wait p true).Inv 1 := inv_wait h.inv hp
  by_cases hpos : 0 ≤ s.sem.val - 1
  · have hstep : s.wait p true = { s.grantNext with
        sem := { s.sem with val := s.sem.val - 1 }
        ticket := Function.update s.ticket p s.nextTicket } := by
      simp only [SemState.wait, Semaphore.wait, if_pos hpos, if_true]
    rw [hstep] at hinv ⊢
    refine ⟨⟨hinv, fun q hq hup => ?_⟩, fun k hk => List.mem_append_left _ hk,
      fun q hq => ⟨rfl, rfl⟩, .inl ⟨hp, ?_⟩⟩
    · have hqp : q ≠ p := by
        rintro rfl
        exact hq hp
      simp only [grantNext, Function.update_of_ne hqp]
      exact List.mem_append_left _ (h.ticket q hq hup)
    · simp [grantNext]
  · have hstep : s.wait p true = { s with
        sem := ⟨s.sem.val - 1, p :: s.sem.sleeplist⟩
        pc := Function.update s.pc p (.asleep true)
        up := Function.update s.up p false
        ticket := Function.update s.ticket p s.nextTicket
        nextTicket := s.nextTicket + 1 } := by
      simp only [SemState.wait, Semaphore.wait, if_neg hpos, Bool.false_eq_true, if_false]
    rw [hstep] at hinv ⊢
    refine ⟨⟨hinv, fun q hq hup => ?_⟩, fun k hk => hk,
      fun q hq => ⟨Function.update_of_ne hq _ _, Function.update_of_ne hq _ _⟩,
      .inr (Function.update_self _ _ _)⟩
    by_cases hqp : q = p
    · subst hqp
      simp at hup
    · simp only [Function.update_of_ne hqp] at hq hup ⊢
      exact h.ticket q hq hup

/-- The process goes on after `sched`. -/
theorem Given.resume (h : s.Given) (hp : s.pc p = .woken) : ∃ t, s.resume p = some t ∧ t.Given ∧
    t.granted = s.granted ∧ t.ticket = s.ticket ∧ t.up = s.up ∧
      t.pc = Function.update s.pc p .outside := by
  obtain ⟨t, ht, hinv⟩ := inv_resume h.inv hp
  have hfields : t.granted = s.granted ∧ t.ticket = s.ticket ∧ t.up = s.up ∧
      t.pc = Function.update s.pc p .outside := by
    simp only [SemState.resume] at ht
    split at ht
    · cases ht
      exact ⟨rfl, rfl, rfl, rfl⟩
    · split at ht
      · cases ht
        exact ⟨rfl, rfl, rfl, rfl⟩
      · cases ht
  obtain ⟨hgranted, hticket, hup, hpc⟩ := hfields
  refine ⟨t, ht, ⟨hinv, fun q hq hmarked => ?_⟩, hgranted, hticket, hup, hpc⟩
  rw [hgranted, hticket]
  rw [hup] at hmarked
  rw [hpc] at hq
  by_cases hqp : q = p
  · rw [hqp, Function.update_self] at hq
    exact (hq rfl).elim
  · rw [Function.update_of_ne hqp] at hq
    exact h.ticket q hq hmarked

theorem Given.alert (h : s.Given) : (s.alert p).Given := by
  refine ⟨inv_alert h.inv, fun q hq hup => ?_⟩
  unfold SemState.alert at hq hup ⊢
  split at hq
  · rename_i hasleep
    rw [if_pos hasleep] at hup ⊢
    by_cases hqp : q = p
    · subst hqp
      exact h.ticket q (by rw [hasleep]; simp) hup
    · simp only [Function.update_of_ne hqp] at hq
      exact h.ticket q hq hup
  · rename_i hasleep
    rw [if_neg hasleep] at hup ⊢
    exact h.ticket q hq hup

/-- Who is asleep is not marked. -/
theorem Given.up_of_asleep (h : s.Given) (hp : s.pc p = .asleep true) : s.up p = false := by
  by_cases hmem : p ∈ s.sem.sleeplist
  · exact (h.inv.queued p hmem).2
  · have hwoken := (h.inv.marked p (by rw [hp]; simp) hmem).1
    rw [hp] at hwoken
    cases hwoken

end SemState

namespace KillWaits

variable {s t : KillWaits} {p q k : ℕ} {l : SleepLock} {c : LockCall}

/-- What holds in all runs. -/
structure Inv (s : KillWaits) : Prop where
  sem : ∀ l, (s.sem l).Given
  place : ∀ p l, (s.sem l).pc p ≠ .outside → (s.call p).lock = some l

/-- What holds while nobody is alerted in a wait. -/
structure Calm (s : KillWaits) : Prop where
  woken : ∀ l p, (s.sem l).pc p = .woken → (s.sem l).up p = true
  ended : ∀ p l k ret, s.ended p = some ((l, k), ret) → ret = true ∧ k ∈ (s.sem l).granted
  panicked : s.panicked = false

/-- A process that waits for no lock is outside of all semaphores. -/
theorem Inv.outside (h : s.Inv) (hp : (s.call p).lock = none) (l : SleepLock) :
    (s.sem l).pc p = .outside := by
  by_contra hne
  have hlock := h.place p l hne
  rw [hp] at hlock
  cases hlock

/-- The way on touches no semaphore and no other process. -/
theorem acquired_spec (s : KillWaits) (p : ℕ) : (s.acquired p).sem = s.sem ∧
    (s.acquired p).ended = s.ended ∧ (s.acquired p).panicked = s.panicked ∧
    (∀ q, q ≠ p → (s.acquired p).call q = s.call q) ∧ ((s.acquired p).call p).lock = none := by
  have hself : ∀ c : LockCall, Function.update s.call p c p = c := fun c => Function.update_self _ _ _
  have hother : ∀ (c : LockCall) q, q ≠ p → Function.update s.call p c q = s.call q :=
    fun c q hq => Function.update_of_ne hq _ _
  unfold acquired
  cases hc : s.call p with
  | acquire b inode =>
    cases inode with
    | none => exact ⟨rfl, rfl, rfl, hother _, by simp [setCall, setHolds, LockCall.lock]⟩
    | some i => exact ⟨rfl, rfl, rfl, hother _, by simp [setCall, setHolds, LockCall.lock]⟩
  | beginOp => exact ⟨rfl, rfl, rfl, hother _, by simp [setCall, LockCall.lock]⟩
  | inodeLock i =>
    cases hv : s.valid i <;>
      simp only [setHolds, setCall, hv, Bool.false_eq_true, if_false, if_true, hself, LockCall.lock,
        and_true, true_and] <;>
      exact fun q hq => hother _ q hq
  | _ => exact ⟨rfl, rfl, rfl, fun q _ => rfl, by rw [hc]; rfl⟩

/-- A lock changes by posts. -/
theorem Inv.posts {u : SemState} (h : s.Inv) (hu : (s.sem l).Posts u)
    (hsem : t.sem = Function.update s.sem l u) (hcall : ∀ p, (t.call p).lock = (s.call p).lock) :
    t.Inv := by
  refine ⟨fun m => ?_, fun p m hp => ?_⟩
  · rw [hsem]
    by_cases hm : m = l
    · rw [hm, Function.update_self]
      exact hu.given
    · rw [Function.update_of_ne hm]
      exact h.sem m
  · rw [hcall]
    rw [hsem] at hp
    by_cases hm : m = l
    · subst hm
      rw [Function.update_self] at hp
      exact h.place p m fun hout => hp ((hu.outside p).mpr hout)
    · rw [Function.update_of_ne hm] at hp
      exact h.place p m hp

theorem Calm.posts {u : SemState} (h : s.Calm) (hu : (s.sem l).Posts u)
    (hsem : t.sem = Function.update s.sem l u) (hended : t.ended = s.ended)
    (hpanicked : t.panicked = s.panicked) : t.Calm := by
  refine ⟨fun m p hp => ?_, fun p m k ret hend => ?_, hpanicked.trans h.panicked⟩
  · rw [hsem] at hp ⊢
    by_cases hm : m = l
    · subst hm
      rw [Function.update_self] at hp ⊢
      rcases hu.woken p hp with ⟨hold, hup⟩ | hup
      · exact hup (h.woken m p hold)
      · exact hup
    · rw [Function.update_of_ne hm] at hp ⊢
      exact h.woken m p hp
  · rw [hended] at hend
    obtain ⟨hret, hk⟩ := h.ended p m k ret hend
    refine ⟨hret, ?_⟩
    rw [hsem]
    by_cases hm : m = l
    · subst hm
      rw [Function.update_self]
      exact hu.grow k hk
    · rw [Function.update_of_ne hm]
      exact hk

/-- Steps that leave the semaphores alone. -/
theorem Inv.aside (h : s.Inv) (hsem : t.sem = s.sem) (hcall : ∀ p, (t.call p).lock = (s.call p).lock) :
    t.Inv := ⟨hsem ▸ h.sem, fun p m hp => (hcall p).trans (h.place p m (hsem ▸ hp))⟩

theorem Calm.aside (h : s.Calm) (hsem : t.sem = s.sem) (hended : t.ended = s.ended)
    (hpanicked : t.panicked = s.panicked) : t.Calm :=
  ⟨hsem ▸ h.woken, by rw [hended, hsem]; exact h.ended, hpanicked.trans h.panicked⟩

/-- `t` is `s` but for the process `p`: the others are where they were in every semaphore, and no
permit is taken back. -/
structure Moves (s t : KillWaits) (p : ℕ) : Prop where
  given : ∀ m, (t.sem m).Given
  others : ∀ m q, q ≠ p → (t.sem m).pc q = (s.sem m).pc q ∧ (t.sem m).up q = (s.sem m).up q
  grow : ∀ m, ∀ k ∈ (s.sem m).granted, k ∈ (t.sem m).granted
  call : ∀ q, q ≠ p → t.call q = s.call q
  ended : ∀ q, q ≠ p → t.ended q = s.ended q

/-- A step at one lock, by one process. -/
theorem Moves.update {u : SemState} (h : s.Inv) (hu : u.Given)
    (hothers : ∀ q, q ≠ p → u.pc q = (s.sem l).pc q ∧ u.up q = (s.sem l).up q)
    (hgrow : ∀ k ∈ (s.sem l).granted, k ∈ u.granted) (hsem : t.sem = Function.update s.sem l u)
    (hcall : ∀ q, q ≠ p → t.call q = s.call q) (hended : ∀ q, q ≠ p → t.ended q = s.ended q) :
    Moves s t p := by
  refine ⟨fun m => ?_, fun m q hq => ?_, fun m k hk => ?_, hcall, hended⟩
  all_goals rw [hsem]
  all_goals by_cases hm : m = l
  · rw [hm, Function.update_self]
    exact hu
  · rw [Function.update_of_ne hm]
    exact h.sem m
  · rw [hm, Function.update_self]
    exact hothers q hq
  · rw [Function.update_of_ne hm]
    exact ⟨rfl, rfl⟩
  · subst hm
    rw [Function.update_self]
    exact hgrow k hk
  · rw [Function.update_of_ne hm]
    exact hk

/-- Only the place of `p` is to be looked at. -/
theorem Moves.inv (hm : Moves s t p) (h : s.Inv)
    (hp : ∀ m, (t.sem m).pc p ≠ .outside → (t.call p).lock = some m) : t.Inv := by
  refine ⟨hm.given, fun q m hq => ?_⟩
  by_cases hqp : q = p
  · subst hqp
    exact hp m hq
  · rw [hm.call q hqp]
    rw [(hm.others m q hqp).1] at hq
    exact h.place q m hq

theorem Moves.calm (hm : Moves s t p) (h : s.Calm)
    (hwoken : ∀ m, (t.sem m).pc p = .woken → (t.sem m).up p = true)
    (hended : ∀ m k ret, t.ended p = some ((m, k), ret) → ret = true ∧ k ∈ (t.sem m).granted)
    (hpanicked : t.panicked = false) : t.Calm := by
  refine ⟨fun m q hq => ?_, fun q m k ret hend => ?_, hpanicked⟩
  · by_cases hqp : q = p
    · subst hqp
      exact hwoken m hq
    · rw [(hm.others m q hqp).1] at hq
      rw [(hm.others m q hqp).2]
      exact h.woken m q hq
  · by_cases hqp : q = p
    · subst hqp
      exact hended m k ret hend
    · rw [hm.ended q hqp] at hend
      obtain ⟨hret, hk⟩ := h.ended q m k ret hend
      exact ⟨hret, hm.grow m k hk⟩

/-- The call comes to its `acquire_sleeplock`. -/
theorem Inv.wait (h : s.Inv) (hp : (s.call p).lock = none) (hs : s.wait p c = some t) :
    t.Inv ∧ (s.Calm → t.Calm) := by
  unfold KillWaits.wait at hs
  split at hs
  · cases hs
  · rename_i l hl
    obtain ⟨u, hu, rfl⟩ := Option.map_eq_some_iff.mp hs
    have hout := h.outside hp
    simp only [SemState.step, if_pos (hout l)] at hu
    cases hu
    obtain ⟨hgiven, hgrow, hothers, hor⟩ := (h.sem l).wait (hout l)
    have hself : Function.update s.sem l ((s.sem l).wait p true) l = (s.sem l).wait p true :=
      Function.update_self _ _ _
    -- `p` is in no other semaphore
    have hother : ∀ m, m ≠ l →
        (Function.update s.sem l ((s.sem l).wait p true) m).pc p = .outside := by
      intro m hm
      rw [Function.update_of_ne hm]
      exact hout m
    rcases hor with ⟨hback, hgranted⟩ | hasleep
    · rw [if_pos hback]
      obtain ⟨hsem', hended', hpanicked', hcall', -⟩ := acquired_spec
        { (s.setSem l ((s.sem l).wait p true)).setCall p c with
          ended := Function.update s.ended p (some ((l, ((s.sem l).wait p true).ticket p), true)) } p
      have hfinish : ((s.setSem l ((s.sem l).wait p true)).setCall p c).finish p l true =
          acquired { (s.setSem l ((s.sem l).wait p true)).setCall p c with
            ended := Function.update s.ended p
              (some ((l, ((s.sem l).wait p true).ticket p), true)) } p := by
        simp only [finish, if_true, setSem, setCall, hself]
      rw [hfinish]
      simp only [setSem, setCall] at hsem' hended' hpanicked' hcall' ⊢
      have houtside : ∀ m, (Function.update s.sem l ((s.sem l).wait p true) m).pc p = .outside := by
        intro m
        by_cases hm : m = l
        · rw [hm, hself]
          exact hback
        · exact hother m hm
      have hmoves := Moves.update (p := p) h hgiven hothers hgrow hsem'
        (fun q hq => (hcall' q hq).trans (Function.update_of_ne hq _ _))
        (fun q hq => by rw [hended', Function.update_of_ne hq])
      refine ⟨hmoves.inv h fun m hm => ?_, fun hcalm => hmoves.calm hcalm (fun m hm => ?_)
        (fun m k ret hend => ?_) (hpanicked'.trans hcalm.panicked)⟩
      · rw [hsem'] at hm
        exact (hm (houtside m)).elim
      · rw [hsem', houtside m] at hm
        cases hm
      · rw [hended', Function.update_self] at hend
        cases hend
        rw [hsem', hself]
        exact ⟨rfl, hgranted⟩
    · rw [if_neg (by rw [hasleep]; simp)]
      have hmoves : Moves s ((s.setSem l ((s.sem l).wait p true)).setCall p c) p :=
        Moves.update h hgiven hothers hgrow rfl (fun q hq => Function.update_of_ne hq _ _)
          (fun q _ => rfl)
      refine ⟨hmoves.inv h fun m hm => ?_, fun hcalm => hmoves.calm hcalm (fun m hm => ?_)
        (fun m k ret hend => ?_) hcalm.panicked⟩
      · by_cases hml : m = l
        · subst hml
          simp only [setCall, Function.update_self]
          exact hl
        · exact (hm (hother m hml)).elim
      · by_cases hml : m = l
        · subst hml
          simp only [setSem, setCall, hself] at hm
          rw [hasleep] at hm
          cases hm
        · have hm' := hother m hml
          simp only [setSem, setCall] at hm
          rw [hm'] at hm
          cases hm
      · obtain ⟨hret, hk⟩ := hcalm.ended p m k ret hend
        exact ⟨hret, hmoves.grow m k hk⟩

/-- What the end of a wait does: `p` is outside, and an assertion fails exactly when the
result is `false`. -/
theorem resume_cases (h : s.Inv) (hlock : (s.call p).lock = some l)
    (hs : s.step (.resume p) = some t) : ∃ u, (s.sem l).pc p = .woken ∧ u.Given ∧
      u.granted = (s.sem l).granted ∧ u.up = (s.sem l).up ∧
      u.pc = Function.update (s.sem l).pc p .outside ∧ t.sem = Function.update s.sem l u ∧
      t.ended = Function.update s.ended p
        (some ((l, (s.sem l).ticket p), (s.sem l).up p)) ∧
      t.panicked = !(s.sem l).up p ∧ (∀ q, q ≠ p → t.call q = s.call q) := by
  simp only [step, hlock] at hs
  split at hs
  · cases hs
  · rename_i hpanicked
    obtain ⟨u, hu, rfl⟩ := Option.map_eq_some_iff.mp hs
    simp only [SemState.step] at hu
    split at hu
    · rename_i hwoken
      obtain ⟨v, hv, hgiven, hgranted, hticket, hup, hpc⟩ := (h.sem l).resume hwoken
      obtain rfl := Option.some.inj (hv.symm.trans hu)
      refine ⟨v, hwoken, hgiven, hgranted, hup, hpc, ?_⟩
      have hself : (Function.update s.sem l v l).ticket p = (s.sem l).ticket p := by
        rw [Function.update_self, hticket]
      cases hret : (s.sem l).up p with
      | false =>
        refine ⟨rfl, ?_, rfl, fun _ _ => rfl⟩
        simp only [finish, setSem, hself, Bool.false_eq_true, if_false]
      | true =>
        obtain ⟨hsem', hended', hpanicked', hcall', -⟩ := acquired_spec { s.setSem l v with
          ended := Function.update s.ended p (some ((l, (s.sem l).ticket p), true)) } p
        simp only [finish, setSem, hself, if_true]
        simp only [setSem] at hsem' hended' hpanicked' hcall'
        refine ⟨hsem', hended', ?_, hcall'⟩
        rw [hpanicked']
        simpa using hpanicked
    · cases hu

theorem Inv.resume (h : s.Inv) (hs : s.step (.resume p) = some t) :
    t.Inv ∧ (s.Calm → t.Calm) := by
  cases hlock : (s.call p).lock with
  | none =>
    simp only [step, hlock] at hs
    split at hs <;> cases hs
  | some l =>
    obtain ⟨u, hwoken, hgiven, hgranted, hup, hpc, hsem, hended, hpanicked, hcall⟩ :=
      resume_cases h hlock hs
    have hmoves : Moves s t p := by
      refine Moves.update h hgiven (fun q hq => ?_) (fun k hk => hgranted ▸ hk) hsem hcall
        (fun q hq => by rw [hended, Function.update_of_ne hq])
      rw [hpc, hup, Function.update_of_ne hq]
      exact ⟨rfl, rfl⟩
    -- `p` waits for `l` only, and comes out of it
    have hout : ∀ m, (t.sem m).pc p = .outside := by
      intro m
      rw [hsem]
      by_cases hm : m = l
      · subst hm
        rw [Function.update_self, hpc, Function.update_self]
      · rw [Function.update_of_ne hm]
        by_contra hne
        exact hm (Option.some.inj (hlock.symm.trans (h.place p m hne))).symm
    refine ⟨hmoves.inv h fun m hm => (hm (hout m)).elim, fun hcalm => hmoves.calm hcalm
      (fun m hm => ?_) (fun m k ret hend => ?_) ?_⟩
    · rw [hout m] at hm
      cases hm
    · rw [hended, Function.update_self] at hend
      cases hend
      have hmarked := hcalm.woken l p hwoken
      exact ⟨hmarked, hmoves.grow l _ ((h.sem l).ticket p (by rw [hwoken]; simp) hmarked)⟩
    · rw [hpanicked, hcalm.woken l p hwoken]
      rfl

theorem Inv.alert (h : s.Inv) (hs : s.step (.alert k) = some t) :
    t.Inv ∧ (s.Spared (.alert k) → s.Calm → t.Calm) := by
  simp only [step] at hs
  split at hs
  · cases hs
  · split at hs
    · rename_i p hkill
      cases hs
      have hpc : ∀ m q, ((s.sem m).alert p).pc q = .outside ↔ (s.sem m).pc q = .outside := by
        intro m q
        unfold SemState.alert
        split
        · rename_i hasleep
          by_cases hqp : q = p
          · subst hqp
            simp [hasleep]
          · simp only [Function.update_of_ne hqp]
        · exact Iff.rfl
      refine ⟨⟨fun m => (h.sem m).alert, fun q m hq => ?_⟩, fun hspared hcalm => ?_⟩
      · exact h.place q m fun hout => hq ((hpc m q).mpr hout)
      · -- nobody wakes up
        have hsame : ∀ m, (s.sem m).alert p = s.sem m := by
          intro m
          unfold SemState.alert
          refine if_neg fun hasleep => hspared p hkill ⟨m, h.place p m (by rw [hasleep]; simp), hasleep⟩
        simp only [hsame]
        exact hcalm.aside rfl rfl rfl
    · cases hs

theorem Inv.post (h : s.Inv) (hs : s.post l = some t) : t.Inv ∧ (s.Calm → t.Calm) := by
  obtain ⟨u, hu, rfl⟩ := Option.map_eq_some_iff.mp hs
  have hposts := (h.sem l).post hu
  exact ⟨h.posts hposts rfl fun _ => rfl, fun hcalm => hcalm.posts hposts rfl rfl rfl⟩

theorem Inv.broadcast (h : s.Inv) (hs : s.broadcast = some t) : t.Inv ∧ (s.Calm → t.Calm) := by
  obtain ⟨r, hr, rfl⟩ := Option.map_eq_some_iff.mp hs
  have hposts := (h.sem .log).postAllLoop hr
  exact ⟨h.posts hposts rfl fun _ => rfl, fun hcalm => hcalm.posts hposts rfl rfl rfl⟩

/-- A process that waited for nothing comes to a place where it waits for nothing. -/
theorem Inv.setCall (h : s.Inv) (hp : (s.call p).lock = none) (hc : c.lock = none) :
    (s.setCall p c).Inv := by
  refine h.aside rfl fun q => ?_
  by_cases hqp : q = p
  · subst hqp
    simp only [KillWaits.setCall, Function.update_self]
    rw [hp, hc]
  · simp only [KillWaits.setCall, Function.update_of_ne hqp]

/-- What one step keeps. -/
theorem Inv.step {a : KillWaitsStep} (h : s.Inv) (hs : s.step a = some t) :
    t.Inv ∧ (s.Spared a → s.Calm → t.Calm) := by
  cases a with
  | resume p => exact (h.resume hs).imp_right fun hc _ => hc
  | alert k => exact h.alert hs
  | acquire p b =>
    simp only [KillWaits.step] at hs
    split at hs
    · cases hs
    · split at hs
      · rename_i hout
        exact (h.wait (by rw [hout]; rfl) hs).imp_right fun hc _ => hc
      · cases hs
  | inodeLock p i =>
    simp only [KillWaits.step] at hs
    split at hs
    · cases hs
    · split at hs
      · rename_i hout
        exact (h.wait (by rw [hout]; rfl) hs).imp_right fun hc _ => hc
      · cases hs
  | check p =>
    simp only [KillWaits.step] at hs
    split at hs
    · cases hs
    · split at hs
      · rename_i hcall
        have hnone : (s.call p).lock = none := by
          rcases hcall with hcall | hcall <;> rw [hcall] <;> rfl
        split at hs
        · rename_i log hlog'
          cases hs
          have hlog : Inv { s with log := log } := h.aside rfl fun _ => rfl
          exact ⟨hlog.setCall hnone rfl, fun _ hc => hc.aside rfl rfl rfl⟩
        · cases hs
          exact ⟨h.setCall hnone rfl, fun _ hc => hc.aside rfl rfl rfl⟩
      · cases hs
  | waitLog p =>
    simp only [KillWaits.step] at hs
    split at hs
    · cases hs
    · split at hs
      · rename_i hout
        exact (h.wait (by rw [hout]; rfl) hs).imp_right fun hc _ => hc
      · cases hs
  | fill p b =>
    simp only [KillWaits.step] at hs
    split at hs
    · cases hs
    · split at hs
      · rename_i i hfill
        exact (h.wait (by rw [hfill]; rfl) hs).imp_right fun hc _ => hc
      · cases hs
  | filled p =>
    simp only [KillWaits.step] at hs
    split at hs
    · cases hs
    · split at hs
      · rename_i b hfilled
        obtain ⟨u, hu, rfl⟩ := Option.map_eq_some_iff.mp hs
        obtain ⟨hinv, hcalm⟩ := h.post hu
        have hcall : u.call = s.call := by
          obtain ⟨v, -, rfl⟩ := Option.map_eq_some_iff.mp hu
          rfl
        have hholds : (u.setHolds p (.block b) false).Inv := hinv.aside rfl fun _ => rfl
        refine ⟨hholds.setCall ?_ rfl, fun _ hc => (hcalm hc).aside rfl rfl rfl⟩
        show (u.call p).lock = none
        rw [hcall, hfilled]
        rfl
      · cases hs
  | release p l =>
    simp only [KillWaits.step] at hs
    split at hs
    · cases hs
    · split at hs
      · obtain ⟨u, hu, rfl⟩ := Option.map_eq_some_iff.mp hs
        obtain ⟨hinv, hcalm⟩ := h.post hu
        exact ⟨hinv.aside rfl fun _ => rfl, fun _ hc => (hcalm hc).aside rfl rfl rfl⟩
      · cases hs
  | sync c n =>
    simp only [KillWaits.step] at hs
    split at hs
    · cases hs
    · obtain ⟨log, -, rfl⟩ := Option.map_eq_some_iff.mp hs
      exact ⟨h.aside rfl fun _ => rfl, fun _ hc => hc.aside rfl rfl rfl⟩
  | endOp c =>
    simp only [KillWaits.step] at hs
    split at hs
    · cases hs
    · obtain ⟨log, -, hs⟩ := Option.bind_eq_some_iff.mp hs
      have hlog : Inv { s with log := log } := h.aside rfl fun _ => rfl
      have hclog : s.Calm → Calm { s with log := log } := fun hc => hc.aside rfl rfl rfl
      split at hs
      · cases hs
        exact ⟨hlog, fun _ => hclog⟩
      · exact (hlog.broadcast hs).imp_right fun hc _ hcalm => hc (hclog hcalm)
  | commit =>
    simp only [KillWaits.step] at hs
    split at hs
    · cases hs
    · obtain ⟨log, -, hs⟩ := Option.bind_eq_some_iff.mp hs
      have hlog : Inv { s with log := log } := h.aside rfl fun _ => rfl
      exact (hlog.broadcast hs).imp_right fun hc _ hcalm => hc (hcalm.aside rfl rfl rfl)
  | mark k p =>
    simp only [KillWaits.step] at hs
    split at hs
    · cases hs
    · split at hs
      · cases hs
        exact ⟨h.aside rfl fun _ => rfl, fun _ hc => hc.aside rfl rfl rfl⟩
      · cases hs

theorem inv_init (h : killWaitsSystem.init s) : s.Inv ∧ s.Calm := by
  obtain ⟨hsem, -, -, -, hended, hpanicked⟩ := h
  have hpc : ∀ l p, (s.sem l).pc p = .outside := fun l => (hsem l).2.1
  refine ⟨⟨fun l => ⟨SemState.inv_init (hsem l) (by decide), fun p hp => ?_⟩, fun p l hp => ?_⟩,
    ⟨fun l p hp => ?_, fun p l k ret hend => ?_, hpanicked⟩⟩
  · exact (hp (hpc l p)).elim
  · exact (hp (hpc l p)).elim
  · rw [hpc l p] at hp
    cases hp
  · rw [hended p] at hend
    cases hend

theorem inv_of_reachable {ok : KillWaits → KillWaitsStep → Prop}
    (h : killWaitsSystem.Reachable ok s) : s.Inv :=
  h.induction (I := Inv) (fun _ hs => (inv_init hs).1) fun _ _ _ hinv _ hs => (hinv.step hs).1

theorem calm_of_reachable (h : killWaitsSystem.Reachable Spared s) : s.Calm :=
  h.strong_induction (I := Calm) (fun _ hs => (inv_init hs).2) fun _ _ _ hreach hcalm hok hs =>
    ((inv_of_reachable hreach).step hs).2 hok hcalm

end KillWaits

/-- **No assertion on `acquire_sleeplock` fails** while kills spare the processes that are
asleep in it, and a wait that ends has the lock. -/
theorem kill_waits (s : KillWaits) (h : killWaitsSystem.Reachable KillWaits.Spared s) : s.Sound := by
  have hcalm := KillWaits.calm_of_reachable h
  refine ⟨hcalm.panicked, fun p l k ret hend => ?_⟩
  obtain ⟨hret, hk⟩ := hcalm.ended p l k ret hend
  exact ⟨fun _ => hk, fun _ => hret⟩

def KillWaits.boot : KillWaits where
  sem _ := .new 1
  log := ⟨⟨0, fun _ => 0⟩, ⟨false, 0⟩, ∅, fun _ => 0⟩
  call _ := .out
  valid _ := false
  holds _ _ := false
  killed _ := false
  kill _ := none
  ended _ := none
  panicked := false

theorem KillWaits.init_boot : killWaitsSystem.init .boot :=
  ⟨fun _ => SemState.init_new 1, ⟨rfl, rfl, rfl⟩, fun _ => rfl, fun _ => rfl, fun _ => rfl, rfl⟩

/-- `inode_lock` waits for the block of the inode; its process is killed after it has been
woken. -/
theorem kill_waits_two : ∃ s : KillWaits, s.killed 1 = true ∧ s.ended 1 = some ((.block 3, 1), true) ∧
    s.Sound := by
  have hrun : (killWaitsSystem.exec KillWaits.Spared .boot
      [.check 2, .acquire 0 3, .inodeLock 1 7, .fill 1 3, .mark 0 1, .release 0 (.block 3), .alert 0,
        .resume 1, .filled 1, .endOp 2, .commit]).map (fun s => (s.killed 1, s.ended 1)) =
      some (true, some ((.block 3, 1), true)) := by
    decide
  obtain ⟨s, hs, heq⟩ := Option.map_eq_some_iff.mp hrun
  obtain ⟨hkilled, hended⟩ := Prod.mk.inj heq
  exact ⟨s, hkilled, hended, kill_waits s ⟨_, KillWaits.init_boot, System.leads_of_exec hs⟩⟩

/-- **A kill panics the kernel**: its target is asleep in `inode_lock`, waiting for the block
of the inode. -/
theorem kill_waits_panic : ∃ s : KillWaits, killWaitsSystem.Reachable (fun _ _ => True) s ∧
    s.panicked = true ∧ ¬s.Sound := by
  have hrun : (killWaitsSystem.exec (fun _ _ => True) .boot
      [.acquire 0 3, .inodeLock 1 7, .fill 1 3, .mark 0 1, .alert 0, .resume 1]).map
      (fun s => s.panicked) = some true := by
    decide
  obtain ⟨s, hs, hpanicked⟩ := Option.map_eq_some_iff.mp hrun
  refine ⟨s, ⟨_, KillWaits.init_boot, System.leads_of_exec hs⟩, hpanicked, fun hsound => ?_⟩
  rw [hsound.1] at hpanicked
  cases hpanicked

/-- A kill that alerts a process which is asleep in one of the waits makes the kernel panic when
the process is the next to go on. -/
theorem kill_panics {ok : KillWaits → KillWaitsStep → Prop} {s t u : KillWaits} {k p : ℕ}
    (h : killWaitsSystem.Reachable ok s) (hkill : s.kill k = some p) (hasleep : s.Asleep p)
    (ht : s.step (.alert k) = some t) (hu : t.step (.resume p) = some u) : u.panicked = true := by
  obtain ⟨l, hlock, hpc⟩ := hasleep
  have hinv := KillWaits.inv_of_reachable h
  have hup := (hinv.sem l).up_of_asleep hpc
  have htinv := (hinv.alert ht).1
  have hfields : t.call = s.call ∧ (t.sem l).up p = false := by
    simp only [KillWaits.step, hkill] at ht
    split at ht
    · cases ht
    · cases ht
      refine ⟨rfl, ?_⟩
      show ((s.sem l).alert p).up p = false
      unfold SemState.alert
      split
      · exact hup
      · exact hup
  obtain ⟨v, -, -, -, -, -, -, -, hpanicked, -⟩ :=
    KillWaits.resume_cases htinv (hfields.1 ▸ hlock) hu
  rw [hpanicked, hfields.2]
  rfl

end OsLab
