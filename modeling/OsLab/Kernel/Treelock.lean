/-
Who holds `treelock` (`kill` and `dfs_tree` of `kernel/proc.c`, `common/spinlock.c`).

The sections of `kernel/proc.c` under `treelock` are those of `ProcTree`; here each of them
takes the lock, runs, and gives it back.  `dfs_tree` is the walk with a stack of the lists that
are still to be visited.  It releases the lock when it has marked its target, and `kill`
releases it again; a release clears the lock whoever has it.

* `TreelockState.Exclusive` — at most one call is in a section; nobody else is about to release
  the lock, and every call that has returned has released it once;
* `TreelockState.NoFind` — a `dfs_tree` does not come to its target;
* `treelock_exclusive` — so it is in these runs;
* `kill_releases` — a `kill` that finds its target releases the lock twice.
-/
import OsLab.Kernel.ProcTree

namespace OsLab

/-- A call that takes `treelock`. -/
inductive TreeCall
  /-- a function whose section is one of `ProcTree` -/
  | tree (l : ProcCall)
  | kill (pid : ℤ)

/-- Where a call is. -/
inductive TreelockPc
  | out
  /-- in `_acquire_spinlock(&treelock)` -/
  | spin (c : TreeCall)
  | inside (c : TreeCall)
  /-- in `dfs_tree`; a frame has the children that its loop is still to visit -/
  | search (pid : ℤ) (frames : List (List ℕ))
  /-- `dfs_tree` has marked the process, and is about to release the lock -/
  | marked (c : ℕ)
  /-- before `alert_proc` -/
  | unlocked (c : ℕ)
  /-- `dfs_tree` has returned the process, and `kill` is about to release the lock -/
  | back
  /-- before the release at the end -/
  | leaving

/-- The call is in the section that it has entered. -/
def TreelockPc.holds : TreelockPc → Prop
  | .inside _ | .search .. | .marked _ | .leaving => True
  | _ => False

/-- The next thing that the call does is a release. -/
def TreelockPc.releases : TreelockPc → Prop
  | .marked _ | .back | .leaving => True
  | _ => False

instance (pc : TreelockPc) : Decidable pc.holds := by
  unfold TreelockPc.holds
  split <;> infer_instance

/-- The releases that the call has behind it. -/
def TreelockPc.count : TreelockPc → Option ℕ
  | .inside _ | .search .. | .marked _ | .leaving => some 0
  | .unlocked _ | .back => some 1
  | .out | .spin _ => none

/-- The processes, the lock, and the calls; call `k` is made on CPU `k`. -/
structure TreelockState where
  tree : ProcTree
  /-- `treelock.locked` -/
  locked : Bool
  call : ℕ → TreelockPc
  /-- how often the call has released the lock -/
  released : ℕ → ℕ
  /-- how often the calls that have returned have released it -/
  returns : List ℕ

inductive TreelockStep
  | begin (k : ℕ) (c : TreeCall)
  | acquire (k : ℕ)
  /-- the section, or the start of `kill` -/
  | run (k : ℕ)
  /-- `dfs_tree` comes to the next node -/
  | visit (k : ℕ)
  | release (k : ℕ)
  /-- `alert_proc` -/
  | alert (k : ℕ)
  /-- a section outside of `treelock` -/
  | other (l : ProcCall)

/-- The sections that are under `treelock`. -/
def ProcCall.underTreelock : ProcCall → Bool
  | .create | .setParent .. | .start .. | .exit .. | .wait _ | .scan _ => true
  | _ => false

/-- Those under the scheduler lock or a semaphore lock. -/
def ProcCall.outside : ProcCall → Bool
  | .activate _ | .schedZombie _ | .waitSem _ | .resume _ => true
  | _ => false

namespace TreelockState

def setCall (s : TreelockState) (k : ℕ) (pc : TreelockPc) : TreelockState :=
  { s with call := Function.update s.call k pc }

/-- `_release_spinlock(&treelock)` -/
def releaseSpinlock (s : TreelockState) (k : ℕ) : TreelockState :=
  { s with locked := false, released := Function.update s.released k (s.released k + 1) }

/-- The release at the end of a call. -/
def finish (s : TreelockState) (k : ℕ) : TreelockState :=
  { (s.releaseSpinlock k).setCall k .out with returns := s.returns ++ [s.released k + 1] }

/-- The process is the one that `dfs_tree` looks for. -/
def Target (s : TreelockState) (pid : ℤ) (c : ℕ) : Prop :=
  s.tree.pid c = pid ∧ s.tree.life c ≠ .unused

instance (s : TreelockState) (pid : ℤ) (c : ℕ) : Decidable (s.Target pid c) :=
  inferInstanceAs (Decidable (_ ∧ _))

def step (s : TreelockState) : TreelockStep → Option TreelockState
  | .begin k c =>
    match s.call k, c with
    | .out, .tree l => if l.underTreelock then some (s.setCall k (.spin c)) else none
    | .out, .kill _ => some (s.setCall k (.spin c))
    | _, _ => none
  | .acquire k =>
    match s.call k with
    | .spin c =>
      if s.locked then none
      else some { s.setCall k (.inside c) with
        locked := true
        released := Function.update s.released k 0 }
    | _ => none
  | .run k =>
    match s.call k with
    | .inside (.tree l) => (s.tree.step l).map fun tree => { s with tree := tree }.setCall k .leaving
    | .inside (.kill pid) =>
      -- `check_pid`
      if 0 ≤ pid ∧ pid < maxPid then some (s.setCall k (.search pid [s.tree.children rootProc]))
      else some (s.setCall k .leaving)
    | _ => none
  | .visit k =>
    match s.call k with
    | .search _ [] => some (s.setCall k .leaving)
    | .search pid ([] :: frames) => some (s.setCall k (.search pid frames))
    | .search pid ((c :: cs) :: frames) =>
      if s.Target pid c then
        some ({ s with tree := { s.tree with
          killed := Function.update s.tree.killed c true } }.setCall k (.marked c))
      else some (s.setCall k (.search pid (s.tree.children c :: cs :: frames)))
    | _ => none
  | .release k =>
    match s.call k with
    | .leaving | .back => some (s.finish k)
    | .marked c => some ((s.releaseSpinlock k).setCall k (.unlocked c))
    | _ => none
  | .alert k =>
    match s.call k with
    | .unlocked c =>
      some ({ s with tree := s.tree.setSem c ((s.tree.childexit c).alert c) }.setCall k .back)
    | _ => none
  | .other l =>
    if l.outside then (s.tree.step l).map fun tree => { s with tree := tree } else none

/-- At most one call is in a section, only this call may release the lock, and calls that have
returned have released it once. -/
structure Exclusive (s : TreelockState) : Prop where
  one : ∀ j k, (s.call j).holds → (s.call k).holds → j = k
  owner : ∀ k, (s.call k).releases → (s.call k).holds
  once : ∀ n ∈ s.returns, n = 1

/-- The search does not come to its target. -/
def NoFind (s : TreelockState) : TreelockStep → Prop
  | .visit k =>
    match s.call k with
    | .search pid ((c :: _) :: _) => ¬s.Target pid c
    | _ => True
  | _ => True

instance (s : TreelockState) (l : TreelockStep) : Decidable (s.NoFind l) := by
  unfold NoFind
  split
  · split <;> infer_instance
  · infer_instance

end TreelockState

/-- No call is in progress. -/
def treelockSystem : System TreelockState TreelockStep where
  init s := procSystem.init s.tree ∧ s.locked = false ∧ (∀ k, s.call k = .out) ∧ s.returns = []
  step := TreelockState.step

namespace TreelockState

variable {s t : TreelockState} {k j : ℕ} {pc : TreelockPc}

/-- What holds while no search comes to its target. -/
structure Inv (s : TreelockState) : Prop where
  one : ∀ j k, (s.call j).holds → (s.call k).holds → j = k
  locked : ∀ k, (s.call k).holds → s.locked = true ∧ s.released k = 0
  /-- no search has found anything -/
  lost : ∀ k, (s.call k).releases → s.call k = .leaving
  quiet : ∀ k c, s.call k ≠ .unlocked c
  once : ∀ n ∈ s.returns, n = 1

theorem Inv.exclusive (h : s.Inv) : s.Exclusive := by
  refine ⟨h.one, fun k hk => ?_, h.once⟩
  rw [h.lost k hk]
  trivial

/-- A call that is in its section goes on in it. -/
theorem Inv.go {c : TreelockPc} (h : s.Inv) (hfrom : (s.call k).holds) (hto : c.holds)
    (hlost : c.releases → c = .leaving) (hcall : t.call = Function.update s.call k c)
    (hlocked : t.locked = s.locked) (hreleased : t.released = s.released)
    (hreturns : t.returns = s.returns) : t.Inv := by
  have hold : ∀ j, (t.call j).holds → (s.call j).holds := by
    intro j hj
    by_cases hjk : j = k
    · rw [hjk]
      exact hfrom
    · rwa [hcall, Function.update_of_ne hjk] at hj
  refine ⟨fun i j hi hj => h.one i j (hold i hi) (hold j hj), fun j hj => ?_, fun j hj => ?_,
    fun j c hj => ?_, hreturns ▸ h.once⟩
  · rw [hlocked, hreleased]
    exact h.locked j (hold j hj)
  · rw [hcall] at hj ⊢
    by_cases hjk : j = k
    · rw [hjk, Function.update_self] at hj ⊢
      exact hlost hj
    · rw [Function.update_of_ne hjk] at hj ⊢
      exact h.lost j hj
  · rw [hcall] at hj
    by_cases hjk : j = k
    · rw [hjk, Function.update_self] at hj
      rw [hj] at hto
      exact hto
    · rw [Function.update_of_ne hjk] at hj
      exact h.quiet j c hj

theorem Inv.begin {c : TreeCall} (h : s.Inv) (hs : s.step (.begin k c) = some t) : t.Inv := by
  have ht : t = s.setCall k (.spin c) := by
    simp only [step] at hs
    split at hs
    · split at hs <;> cases hs
      rfl
    · cases hs
      rfl
    · cases hs
  subst ht
  have hcall : ∀ j, j ≠ k → Function.update s.call k (.spin c) j = s.call j := fun j hj =>
    Function.update_of_ne hj _ _
  -- a call that spins is in no section
  have hne : ∀ j, ((s.setCall k (.spin c)).call j).holds ∨ ((s.setCall k (.spin c)).call j).releases →
      j ≠ k := by
    rintro j hj rfl
    simp only [setCall, Function.update_self] at hj
    exact hj.elim id id
  refine ⟨fun i j hi hj => ?_, fun j hj => ?_, fun j hj => ?_, fun j d hj => ?_, h.once⟩
  · have hik := hcall i (hne i (.inl hi))
    have hjk := hcall j (hne j (.inl hj))
    exact h.one i j (hik ▸ hi) (hjk ▸ hj)
  · have hjk := hcall j (hne j (.inl hj))
    exact h.locked j (hjk ▸ hj)
  · have hjk := hcall j (hne j (.inr hj))
    simp only [setCall] at hj ⊢
    rw [hjk] at hj ⊢
    exact h.lost j hj
  · simp only [setCall] at hj
    by_cases hjk : j = k
    · rw [hjk, Function.update_self] at hj
      cases hj
    · rw [hcall j hjk] at hj
      exact h.quiet j d hj

theorem Inv.acquire (h : s.Inv) (hs : s.step (.acquire k) = some t) : t.Inv := by
  simp only [step] at hs
  split at hs
  · split at hs
    · cases hs
    · rename_i c hspin hfree
      cases hs
      -- nobody has the lock while it is free
      have hnone : ∀ j, ¬(s.call j).holds := fun j hj => hfree (h.locked j hj).1
      have hcall : ∀ j, j ≠ k → Function.update s.call k (.inside c) j = s.call j := fun j hj =>
        Function.update_of_ne hj _ _
      have honly : ∀ j, (Function.update s.call k (.inside c) j).holds → j = k := by
        intro j hj
        by_contra hjk
        rw [hcall j hjk] at hj
        exact hnone j hj
      refine ⟨fun i j hi hj => (honly i hi).trans (honly j hj).symm, fun j hj => ?_, fun j hj => ?_,
        fun j d hj => ?_, h.once⟩
      · rw [honly j hj]
        exact ⟨rfl, Function.update_self _ _ _⟩
      · have hjk : j ≠ k := by
          rintro rfl
          simp [setCall, TreelockPc.releases] at hj
        simp only [setCall, hcall j hjk] at hj ⊢
        exact h.lost j hj
      · simp only [setCall] at hj
        by_cases hjk : j = k
        · rw [hjk, Function.update_self] at hj
          cases hj
        · rw [hcall j hjk] at hj
          exact h.quiet j d hj
  · cases hs

/-- The call that has the lock gives it back. -/
theorem Inv.finish (h : s.Inv) (hk : s.call k = .leaving) : (s.finish k).Inv := by
  have hholds : (s.call k).holds := by
    rw [hk]
    trivial
  have hcall : ∀ j, j ≠ k → Function.update s.call k .out j = s.call j := fun j hj =>
    Function.update_of_ne hj _ _
  have hnone : ∀ j, ¬(Function.update s.call k .out j).holds := by
    intro j hj
    by_cases hjk : j = k
    · rw [hjk, Function.update_self] at hj
      exact hj
    · rw [hcall j hjk] at hj
      exact hjk (h.one j k hj hholds)
  refine ⟨fun i j hi _ => (hnone i hi).elim, fun j hj => (hnone j hj).elim, fun j hj => ?_,
    fun j c hj => ?_, fun n hn => ?_⟩
  · have hjk : j ≠ k := by
      rintro rfl
      simp [TreelockState.finish, setCall, TreelockPc.releases] at hj
    simp only [TreelockState.finish, setCall, releaseSpinlock, hcall j hjk] at hj ⊢
    exact h.lost j hj
  · simp only [TreelockState.finish, setCall, releaseSpinlock] at hj
    by_cases hjk : j = k
    · rw [hjk, Function.update_self] at hj
      cases hj
    · rw [hcall j hjk] at hj
      exact h.quiet j c hj
  · rcases List.mem_append.mp hn with hn | hn
    · exact h.once n hn
    · rw [List.mem_singleton.mp hn, (h.locked k hholds).2]

theorem Inv.run (h : s.Inv) (hs : s.step (.run k) = some t) : t.Inv := by
  simp only [step] at hs
  split at hs
  · rename_i l hk
    obtain ⟨tree, -, rfl⟩ := Option.map_eq_some_iff.mp hs
    exact h.go (by rw [hk]; trivial) (c := .leaving) trivial (fun _ => rfl) rfl rfl rfl rfl
  · rename_i pid hk
    have hin : (s.call k).holds := by
      rw [hk]
      trivial
    split at hs
    · cases hs
      exact h.go hin (c := .search _ _) trivial nofun rfl rfl rfl rfl
    · cases hs
      exact h.go hin (c := .leaving) trivial (fun _ => rfl) rfl rfl rfl rfl
  · cases hs

theorem Inv.visit (h : s.Inv) (hok : s.NoFind (.visit k)) (hs : s.step (.visit k) = some t) :
    t.Inv := by
  simp only [step] at hs
  split at hs
  · rename_i pid hk
    cases hs
    exact h.go (by rw [hk]; trivial) (c := .leaving) trivial (fun _ => rfl) rfl rfl rfl rfl
  · rename_i pid frames hk
    cases hs
    exact h.go (by rw [hk]; trivial) (c := .search _ _) trivial nofun rfl rfl rfl rfl
  · rename_i pid c cs frames hk
    simp only [NoFind, hk] at hok
    rw [if_neg hok] at hs
    cases hs
    exact h.go (by rw [hk]; trivial) (c := .search _ _) trivial nofun rfl rfl rfl rfl
  · cases hs

theorem inv_of_reachable (h : treelockSystem.Reachable NoFind s) : s.Inv := by
  refine h.induction (I := Inv) ?_ ?_
  · rintro s ⟨-, -, hcall, hreturns⟩
    refine ⟨fun i j hi _ => ?_, fun j hj => ?_, fun j hj => ?_, fun j c hj => ?_, fun n hn => ?_⟩
    · rw [hcall i] at hi
      exact hi.elim
    · rw [hcall j] at hj
      exact hj.elim
    · rw [hcall j] at hj
      exact hj.elim
    · rw [hcall j] at hj
      cases hj
    · rw [hreturns] at hn
      cases hn
  · intro s l t hinv hok hs
    cases l with
    | begin k c => exact hinv.begin hs
    | acquire k => exact hinv.acquire hs
    | run k => exact hinv.run hs
    | visit k => exact hinv.visit hok hs
    | release k =>
      have hs' := hs
      simp only [treelockSystem, step] at hs'
      split at hs'
      · rename_i hk
        cases hs'
        exact hinv.finish hk
      · rename_i hk
        have hlost := hinv.lost k (by rw [hk]; trivial)
        rw [hk] at hlost
        cases hlost
      · rename_i c hk
        have hlost := hinv.lost k (by rw [hk]; trivial)
        rw [hk] at hlost
        cases hlost
      · cases hs'
    | alert k =>
      have hs' := hs
      simp only [treelockSystem, step] at hs'
      split at hs'
      · rename_i c hk
        exact (hinv.quiet k c hk).elim
      · cases hs'
    | other l =>
      have hs' := hs
      simp only [treelockSystem, step] at hs'
      split at hs'
      · obtain ⟨tree, -, rfl⟩ := Option.map_eq_some_iff.mp hs'
        exact ⟨hinv.one, hinv.locked, hinv.lost, hinv.quiet, hinv.once⟩
      · cases hs'

end TreelockState

/-- **`treelock` is mutually exclusive**, and every call releases it once, as long as no `kill`
comes to its target. -/
theorem treelock_exclusive (s : TreelockState)
    (h : treelockSystem.Reachable TreelockState.NoFind s) : s.Exclusive :=
  (TreelockState.inv_of_reachable h).exclusive

def TreelockState.boot : TreelockState where
  tree := .boot
  locked := false
  call _ := .out
  released _ := 0
  returns := []

theorem TreelockState.init_boot : treelockSystem.init .boot := ⟨rfl, rfl, fun _ => rfl, rfl⟩

/-- A process is started, and a kill looks in vain for another one while a third call waits. -/
theorem treelock_exclusive_two : ∃ s : TreelockState, s.returns = [1, 1, 1] ∧ (s.call 1).holds ∧
    s.Exclusive := by
  have hrun : (treelockSystem.exec TreelockState.NoFind .boot
      [.begin 0 (.tree .create), .acquire 0, .run 0, .release 0,
        .begin 0 (.tree (.start 0 1)), .acquire 0, .run 0, .release 0, .other (.activate 0),
        .begin 0 (.kill 5), .begin 1 (.tree .create), .acquire 0, .run 0, .visit 0, .visit 0,
        .visit 0, .visit 0, .release 0, .acquire 1]).map
      (fun s => (s.returns, decide (s.call 1).holds)) = some ([1, 1, 1], true) := by
    decide
  obtain ⟨s, hs, heq⟩ := Option.map_eq_some_iff.mp hrun
  obtain ⟨hreturns, hholds⟩ := Prod.mk.inj heq
  exact ⟨s, hreturns, of_decide_eq_true hholds,
    treelock_exclusive s ⟨_, TreelockState.init_boot, System.leads_of_exec hs⟩⟩

/-- **Two calls are in a section under `treelock`**: a kill has found its target, and its second
release has given away the lock that another call had taken in between. -/
theorem treelock_shared : ∃ s : TreelockState, treelockSystem.Reachable (fun _ _ => True) s ∧
    (s.call 1).holds ∧ (s.call 2).holds ∧ ¬s.Exclusive := by
  have hrun : (treelockSystem.exec (fun _ _ => True) .boot
      [.begin 0 (.tree .create), .acquire 0, .run 0, .release 0,
        .begin 0 (.tree (.start 0 1)), .acquire 0, .run 0, .release 0, .other (.activate 0),
        .begin 0 (.kill 1), .acquire 0, .run 0, .visit 0, .release 0, .alert 0,
        .begin 1 (.tree .create), .acquire 1, .release 0, .begin 2 (.tree .create), .acquire 2]).map
      (fun s => (decide (s.call 1).holds, decide (s.call 2).holds)) = some (true, true) := by
    decide
  obtain ⟨s, hs, heq⟩ := Option.map_eq_some_iff.mp hrun
  obtain ⟨hone, htwo⟩ := Prod.mk.inj heq
  have hone := of_decide_eq_true hone
  have htwo := of_decide_eq_true htwo
  refine ⟨s, ⟨_, TreelockState.init_boot, System.leads_of_exec hs⟩, hone, htwo, fun h => ?_⟩
  have heq := h.one 1 2 hone htwo
  omega

namespace TreelockState

/-- The calls count their releases. -/
theorem count_step {s t : TreelockState} {l : TreelockStep}
    (h : ∀ k n, (s.call k).count = some n → s.released k = n) (hs : s.step l = some t) :
    ∀ k n, (t.call k).count = some n → t.released k = n := by
  -- one call moves, and its counter is right
  have hmove : ∀ {k c r}, t.call = Function.update s.call k c →
      t.released = Function.update s.released k r → (∀ n, c.count = some n → r = n) →
      ∀ j n, (t.call j).count = some n → t.released j = n := by
    intro k c r hcall hreleased hpc j n hj
    rw [hcall] at hj
    rw [hreleased]
    by_cases hjk : j = k
    · rw [hjk, Function.update_self] at hj ⊢
      exact hpc n hj
    · rw [Function.update_of_ne hjk] at hj ⊢
      exact h j n hj
  have hkeep : ∀ {k c}, t.call = Function.update s.call k c → t.released = s.released →
      c.count = (s.call k).count ∨ c.count = none →
      ∀ j n, (t.call j).count = some n → t.released j = n := by
    intro k c hcall hreleased hpc
    refine hmove hcall (r := s.released k) ?_ fun n hn => ?_
    · rw [hreleased, Function.update_eq_self]
    · rcases hpc with hpc | hpc
      · exact h k n (hpc ▸ hn)
      · rw [hpc] at hn
        cases hn
  cases l with
  | begin k c =>
    simp only [step] at hs
    split at hs
    · split at hs <;> cases hs
      exact hkeep (c := .spin _) rfl rfl (.inr rfl)
    · cases hs
      exact hkeep (c := .spin _) rfl rfl (.inr rfl)
    · cases hs
  | acquire k =>
    simp only [step] at hs
    split at hs
    · split at hs
      · cases hs
      · cases hs
        exact hmove (c := .inside _) rfl rfl fun n hn => Option.some.inj hn
    · cases hs
  | run k =>
    simp only [step] at hs
    split at hs
    · rename_i l hk
      obtain ⟨tree, -, rfl⟩ := Option.map_eq_some_iff.mp hs
      exact hkeep (c := .leaving) rfl rfl (.inl (by rw [hk]; rfl))
    · rename_i pid hk
      split at hs <;> cases hs
      · exact hkeep (c := .search _ _) rfl rfl (.inl (by rw [hk]; rfl))
      · exact hkeep (c := .leaving) rfl rfl (.inl (by rw [hk]; rfl))
    · cases hs
  | visit k =>
    simp only [step] at hs
    split at hs
    · rename_i hk
      cases hs
      exact hkeep (c := .leaving) rfl rfl (.inl (by rw [hk]; rfl))
    · rename_i hk
      cases hs
      exact hkeep (c := .search _ _) rfl rfl (.inl (by rw [hk]; rfl))
    · rename_i hk
      split at hs <;> cases hs
      · exact hkeep (c := .marked _) rfl rfl (.inl (by rw [hk]; rfl))
      · exact hkeep (c := .search _ _) rfl rfl (.inl (by rw [hk]; rfl))
    · cases hs
  | release k =>
    simp only [step] at hs
    split at hs
    · cases hs
      exact hmove (c := .out) rfl rfl nofun
    · cases hs
      exact hmove (c := .out) rfl rfl nofun
    · rename_i c hk
      cases hs
      refine hmove (c := .unlocked c) rfl rfl fun n hn => ?_
      rw [h k 0 (by rw [hk]; rfl)]
      exact Option.some.inj hn
    · cases hs
  | alert k =>
    simp only [step] at hs
    split at hs
    · rename_i c hk
      cases hs
      exact hkeep (c := .back) rfl rfl (.inl (by rw [hk]; rfl))
    · cases hs
  | other l =>
    simp only [step] at hs
    split at hs
    · obtain ⟨tree, -, rfl⟩ := Option.map_eq_some_iff.mp hs
      exact h
    · cases hs

end TreelockState

/-- A `kill` whose `dfs_tree` has found its target returns after two releases. -/
theorem kill_releases {s : TreelockState} {k : ℕ} (hk : s.call k = .back)
    (h : treelockSystem.Reachable (fun _ _ => True) s) :
    ∃ t, s.step (.release k) = some t ∧ t.call k = .out ∧ 2 ∈ t.returns := by
  have hcount : s.released k = 1 := by
    refine h.induction (I := fun s => ∀ k n, (s.call k).count = some n → s.released k = n) ?_
      (fun s l t hinv _ hs => TreelockState.count_step hinv hs) k 1 (by rw [hk]; rfl)
    rintro s ⟨-, -, hcall, -⟩ j n hj
    rw [hcall j] at hj
    cases hj
  refine ⟨s.finish k, by simp only [TreelockState.step, hk], Function.update_self _ _ _, ?_⟩
  simp only [TreelockState.finish, hcount]
  exact List.mem_append_right _ List.mem_cons_self

end OsLab
