/-
The process tree: `create_proc`, `set_parent_to_this`, `start_proc`, `exit`, `wait` and
`kill` (`kernel/proc.c`).

A step is one section under `treelock`, with the sections of other locks inside it, or
one section under the scheduler lock or under a semaphore lock outside of it.  Processes
are numbered in the order in which they are allocated, and `root_proc` is the first.
The scheduler's states that a process has between its start and its end are one here:
a process sleeps when it is asleep on its `childexit`.
-/
import OsLab.Common.SemThreads

namespace OsLab

/-- `MAX_PID` -/
def maxPid : ℕ := 2048

/-- `struct PidMap` -/
structure PidMap where
  pidMap : ℕ → Bool
  lastPid : ℤ

namespace PidMap

/-- `get_pid`; `none` when it returns -1. -/
def getPid (m : PidMap) : Option (ℕ × PidMap) :=
  let offset := ((m.lastPid + 1) % maxPid).toNat
  ((List.range' offset (maxPid - offset) ++ List.range offset).find? fun pid =>
    !m.pidMap pid).map fun pid => (pid, ⟨Function.update m.pidMap pid true, pid⟩)

/-- `release_pid` without its assertion -/
def release (m : PidMap) (pid : ℕ) : PidMap :=
  { m with pidMap := Function.update m.pidMap pid false }

end PidMap

/-- Where a process is in the functions of `proc.c`. -/
inductive ProcPc
  | outside
  /-- in `start_proc` of `c`, before `activate_proc(c)` -/
  | starting (c : ℕ)
  /-- in `exit`, after the section under `treelock` -/
  | exiting
  /-- after `_sched(ZOMBIE)` -/
  | gone
  /-- in `wait`, before `wait_sem` -/
  | waiting
  /-- asleep in `wait_sem`, or woken there -/
  | inSem
  /-- in `wait`, after `wait_sem` returned `ret` -/
  | scan (ret : Bool)
  /-- in `kill`, before `alert_proc(c)` -/
  | killing (c : ℕ)
  deriving DecidableEq, Repr

/-- `p->state`: `UNUSED`, one of the states of a started process, or `ZOMBIE`. -/
inductive Life
  | unused | active | zombie
  deriving DecidableEq, Repr

/-- The processes. -/
structure ProcTree where
  /-- how many have been allocated -/
  next : ℕ
  pids : PidMap
  pid : ℕ → ℤ
  exitcode : ℕ → ℤ
  killed : ℕ → Bool
  life : ℕ → Life
  parent : ℕ → Option ℕ
  /-- from `children.next` to `children.prev` -/
  children : ℕ → List ℕ
  childexit : ℕ → SemState
  pc : ℕ → ProcPc
  /-- the value that the last `wait` of a process returned, and its `*exitcode` -/
  waited : ℕ → ℤ × ℤ

/-- `root_proc` -/
def rootProc : ℕ := 0

/-- The sections. -/
inductive ProcCall
  /-- `create_proc` -/
  | create
  /-- `set_parent_to_this(c)` by `p` -/
  | setParent (p c : ℕ)
  /-- `start_proc(c)` by `p`, up to the release of `treelock` -/
  | start (p c : ℕ)
  /-- its `activate_proc` -/
  | activate (p : ℕ)
  /-- `exit(code)` by `p`, up to the release of `treelock` -/
  | exit (p : ℕ) (code : ℤ)
  /-- its `_sched(ZOMBIE)` -/
  | schedZombie (p : ℕ)
  /-- `wait` by `p`, the first section -/
  | wait (p : ℕ)
  /-- its `wait_sem` up to the point where it returns or sleeps -/
  | waitSem (p : ℕ)
  /-- the rest of `wait_sem` -/
  | resume (p : ℕ)
  /-- the last section of `wait` -/
  | scan (p : ℕ)
  /-- `kill(pid)` by `p`, up to the release of `treelock` -/
  | kill (p : ℕ) (pid : ℤ)
  /-- its `alert_proc` -/
  | alert (p : ℕ)

namespace ProcTree

/-- `p` has been started and is in none of the functions. -/
def Runs (s : ProcTree) (p : ℕ) : Prop := s.life p = .active ∧ s.pc p = .outside

instance (s : ProcTree) (p : ℕ) : Decidable (s.Runs p) := inferInstanceAs (Decidable (_ ∧ _))

/-- `c` has been created, and no process has called `start_proc` on it. -/
def Fresh (s : ProcTree) (c : ℕ) : Prop :=
  c < s.next ∧ s.life c = .unused ∧ ∀ q < s.next, s.pc q ≠ .starting c

instance (s : ProcTree) (c : ℕ) : Decidable (s.Fresh c) := inferInstanceAs (Decidable (_ ∧ _))

def setPc (s : ProcTree) (p : ℕ) (pc : ProcPc) : ProcTree :=
  { s with pc := Function.update s.pc p pc }

def setSem (s : ProcTree) (p : ℕ) (sem : SemState) : ProcTree :=
  { s with childexit := Function.update s.childexit p sem }

/-- `post_sem(&p->childexit)` -/
def post (s : ProcTree) (p : ℕ) : Option ProcTree := (s.childexit p).postSem.map (s.setSem p)

/-- `create_proc`, with `init_proc` -/
def createProc (s : ProcTree) : ProcTree :=
  let n := s.next
  let r := s.pids.getPid
  { next := n + 1
    pids := match r with
      | some (_, pids) => pids
      | none => s.pids
    pid := Function.update s.pid n (match r with
      | some (pid, _) => pid
      | none => -1)
    exitcode := Function.update s.exitcode n 0
    killed := Function.update s.killed n false
    life := Function.update s.life n .unused
    parent := Function.update s.parent n none
    children := Function.update s.children n []
    childexit := Function.update s.childexit n (.new 0)
    pc := Function.update s.pc n .outside
    waited := s.waited }

/-- The parent of `c` is set and `c` is inserted behind the head of its children. -/
def link (s : ProcTree) (p c : ℕ) : ProcTree :=
  { s with
    parent := Function.update s.parent c (some p)
    children := Function.update s.children p (c :: s.children p) }

/-- The loop of `exit`: the children go to `root_proc`, which is told of the zombies. -/
def adopt (s : ProcTree) : List ℕ → Option ProcTree
  | [] => some s
  | c :: cs =>
    let s := { s with parent := Function.update s.parent c (some rootProc) }
    if s.life c = .zombie then (s.post rootProc).bind fun s => s.adopt cs else s.adopt cs

/-- `_merge_list(&root_proc.children, _detach_from_list(&this->children))`: the last child
comes first, and then the others. -/
def mergeList (cs rest : List ℕ) : List ℕ :=
  match cs.getLast? with
  | none => rest
  | some c => c :: cs.dropLast ++ rest

/-- The children of `p` leave its list and join that of `root_proc`. -/
def moveChildren (s : ProcTree) (p : ℕ) : ProcTree :=
  let children := Function.update s.children p []
  { s with
    children := Function.update children rootProc
      (mergeList (s.children p) (children rootProc)) }

/-- The section of `exit` under `treelock`; `none` when an assertion of a semaphore fails
or the process has no parent. -/
def exit (s : ProcTree) (p : ℕ) (code : ℤ) : Option ProcTree := do
  let s ← { s with exitcode := Function.update s.exitcode p code }.adopt (s.children p)
  let s := s.moveChildren p
  let s ← s.post (← s.parent p)
  return s.setPc p .exiting

/-- The section of `wait` before `wait_sem`. -/
def wait (s : ProcTree) (p : ℕ) : ProcTree :=
  if s.children p = [] then { s with waited := Function.update s.waited p (-1, (s.waited p).2) }
  else s.setPc p .waiting

/-- The section of `wait` after `wait_sem`; `none` when it comes to `PANIC()` or to the
assertion of `release_pid`. -/
def waitScan (s : ProcTree) (p : ℕ) : Option ProcTree :=
  match (s.children p).find? fun c => decide (s.life c = .zombie) with
  | none => none
  | some c =>
    if 0 ≤ s.pid c ∧ s.pid c < maxPid then
      some { s.setPc p .outside with
        children := Function.update s.children p ((s.children p).erase c)
        pids := s.pids.release (s.pid c).toNat
        waited := Function.update s.waited p (s.pid c, s.exitcode c) }
    else none

/-- `dfs_tree`, where `fuel` bounds the depth of the tree; the process that is found. -/
def dfsTree (s : ProcTree) (pid : ℤ) : ℕ → ℕ → Option ℕ
  | 0, _ => none
  | fuel + 1, fa =>
    (s.children fa).findSome? fun child =>
      if s.pid child = pid ∧ s.life child ≠ .unused then some child else s.dfsTree pid fuel child

/-- The section of `kill` under `treelock`. -/
def kill (s : ProcTree) (p : ℕ) (pid : ℤ) : ProcTree :=
  if 0 ≤ pid ∧ pid < maxPid then
    match s.dfsTree pid (s.next + 1) rootProc with
    | none => s
    | some c => { s.setPc p (.killing c) with killed := Function.update s.killed c true }
  else s

/-- One section. -/
def step (s : ProcTree) : ProcCall → Option ProcTree
  | .create => some s.createProc
  | .setParent p c =>
    -- "it's ensured that the old proc->parent = NULL"
    if s.Runs p ∧ c < s.next ∧ s.parent c = none then some (s.link p c) else none
  | .start p c =>
    -- a process is started once
    if s.Runs p ∧ s.Fresh c then
      some ((if s.parent c = none then s.link rootProc c else s).setPc p (.starting c))
    else none
  | .activate p =>
    match s.pc p with
    | .starting c =>
      let s := s.setPc p .outside
      some (if s.life c = .unused then { s with life := Function.update s.life c .active } else s)
    | _ => none
  | .exit p code => if s.Runs p then s.exit p code else none
  | .schedZombie p =>
    if s.pc p = .exiting then
      some { s.setPc p .gone with life := Function.update s.life p .zombie }
    else none
  | .wait p => if s.Runs p then some (s.wait p) else none
  | .waitSem p =>
    if s.pc p = .waiting then
      let sem := (s.childexit p).wait p true
      some ((s.setSem p sem).setPc p (if sem.pc p = .outside then .scan true else .inSem))
    else none
  | .resume p =>
    if s.pc p = .inSem then
      ((s.childexit p).step (.resume p)).map fun sem =>
        (s.setSem p sem).setPc p (.scan ((s.childexit p).up p))
    else none
  | .scan p =>
    match s.pc p with
    | .scan _ => s.waitScan p
    | _ => none
  | .kill p pid => if s.Runs p then some (s.kill p pid) else none
  | .alert p =>
    match s.pc p with
    | .killing c => some ((s.setSem c ((s.childexit c).alert c)).setPc p .outside)
    | _ => none

/-- The state after `define_init(root_proc)`. -/
def boot : ProcTree where
  next := 1
  pids := ⟨fun n => n = 0, 0⟩
  pid := fun _ => 0
  exitcode := fun _ => 0
  killed := fun _ => false
  life := fun p => if p = rootProc then .active else .unused
  parent := fun p => if p = rootProc then some rootProc else none
  children := fun _ => []
  childexit := fun _ => .new 0
  pc := fun _ => .outside
  waited := fun _ => (0, 0)

end ProcTree

/-- Any number of processes, from `root_proc` on. -/
def procSystem : System ProcTree ProcCall where
  init s := s = .boot
  step := ProcTree.step

end OsLab
