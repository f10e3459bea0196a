/-
What the shell does with a tree (`runcmd` in `user/sh/main.c`).

The calls are answered as documented; `fork`, `open`, `pipe` and `execv` may fail at any time.
Since `runcmd` does not return, it is a program that ends with its exit status.

* `runcmd` — the program, over the nodes of the tree;
* `jobs` — the programs that a tree is for, each with its process, its standard channels and the
  processes that have to be over before it starts;
* `meets_runcmd` — `runcmd` does the jobs of its tree, and no others.
-/
import OsLab.Lib.ProcessRules
import OsLab.User.ShellGrammar
import Mathlib.Tactic.IntervalCases

namespace OsLab.Shell

open Processes

/-! ### The program -/

/-- A file that the shell opens. -/
inductive ShFile
  /-- `"console"`, with `O_RDWR` -/
  | console
  | redirect (path : Text) (mode : OpenMode)
  deriving DecidableEq, Repr

/-- A part of the shell that returns a value. -/
abbrev ShellM (α : Type) := Prog (Call ShFile (List Text)) Ans ℕ α

/-- A part of the shell that does not return. -/
abbrev Script := ShellM Empty

def sys (c : Call ShFile (List Text)) : ShellM (Ans c) := Prog.ask c

/-- `exit` -/
def exit {α : Type} (status : ℕ) : ShellM α := .fail status

/-- `PANIC` -/
def panicMessage {α : Type} (s : String) : ShellM α := do
  sys (.print 2 (s ++ "\n"))
  exit 1

/-- `fork1() == 0` -/
def fork1 : ShellM Bool := do
  match (← sys .fork : Forked) with
  | .failed => panicMessage "fork"
  | .child => return true
  | .parent => return false

/-- `runcmd` -/
def runcmd : Cmd Text → Script
  | .exec [] => exit 0
  | .exec (file :: args) => do
    sys (.exec (file :: args))
    sys (.print 2 ("exec " ++ String.ofList file ++ " failed\n"))
    exit 0
  | .redir cmd target => do
    sys (.close target.fd)
    match (← sys (.openFile (.redirect target.file target.mode)) : Option ℕ) with
    | none =>
      sys (.print 2 ("open " ++ String.ofList target.file ++ " failed\n"))
      exit 1
    | some _ => runcmd cmd
  | .list left right => do
    if ← fork1 then runcmd left
    else
      sys .wait
      runcmd right
  | .pipe left right => do
    match (← sys .pipe : Option (ℕ × ℕ)) with
    | none => panicMessage "pipe"
    | some (p₀, p₁) =>
      if ← fork1 then
        sys (.close 1)
        let _ ← sys (.dup p₁)
        sys (.close p₀)
        sys (.close p₁)
        runcmd left
      else if ← fork1 then
        sys (.close 0)
        let _ ← sys (.dup p₀)
        sys (.close p₀)
        sys (.close p₁)
        runcmd right
      else
        sys (.close p₀)
        sys (.close p₁)
        sys .wait
        sys .wait
        exit 0
  | .back cmd => do
    if ← fork1 then runcmd cmd
    else exit 0

/-! ### What a tree is for -/

/-- The standard channels of a process. -/
structure Io where
  stdin : Channel ShFile
  stdout : Channel ShFile
  stderr : Channel ShFile

namespace Io

/-- They are open, and nothing else is. -/
def fds (io : Io) : Fds ShFile
  | 0 => some io.stdin
  | 1 => some io.stdout
  | 2 => some io.stderr
  | _ => none

/-- With a file in the place of one of them. -/
def redirect (io : Io) (fd : ℕ) (ch : Channel ShFile) : Io :=
  match fd with
  | 0 => { io with stdin := ch }
  | 1 => { io with stdout := ch }
  | _ => { io with stderr := ch }

end Io

/-- A program that is to run. -/
structure Job where
  pid : Pid
  argv : List Text
  io : Io
  /-- the processes that have to be over before -/
  after : List Pid

/-- The processes below `p` that a command at `p` waits for, when `p` has made `n` pipes and
children before. -/
def waitsFor : Cmd Text → Pid → ℕ → List Pid
  | .exec _, _, _ => []
  | .redir cmd _, p, n => waitsFor cmd p n
  | .list left right, p, n =>
    (n :: p) :: waitsFor left (n :: p) 0 ++ waitsFor right p (n + 1)
  | .pipe left right, p, n =>
    ((n + 1) :: p) :: waitsFor left ((n + 1) :: p) 0 ++
      ((n + 2) :: p) :: waitsFor right ((n + 2) :: p) 0
  | .back _, _, _ => []

/-- The jobs of a command. -/
def jobs : Cmd Text → Pid → ℕ → Io → List Pid → List Job
  | .exec [], _, _, _, _ => []
  | .exec (file :: args), p, _, io, after => [⟨p, file :: args, io, after⟩]
  | .redir cmd target, p, n, io, after =>
    jobs cmd p n (io.redirect target.fd (.file (.redirect target.file target.mode))) after
  | .list left right, p, n, io, after =>
    jobs left (n :: p) 0 io after ++
      jobs right p (n + 1) io (after ++ (n :: p) :: waitsFor left (n :: p) 0)
  | .pipe left right, p, n, io, after =>
    jobs left ((n + 1) :: p) 0 { io with stdout := .writeEnd p n } after ++
      jobs right ((n + 2) :: p) 0 { io with stdin := .readEnd p n } after
  | .back cmd, p, n, io, after => jobs cmd (n :: p) 0 io after

/-! ### The descriptors -/

section fds

variable {nofile : ℕ} {io : Io} {p : Pid} {n : ℕ}

/-- After a redirection the file is in the place of the channel. -/
theorem lowest_closed {fd : ℕ} (hfd : fd < 3) (hn : 4 < nofile) :
    lowest nofile (Function.update io.fds fd none) = some fd := by
  refine firstIndex_eq (by omega) (by simp) fun j hj => ?_
  rw [Function.update_of_ne (by omega)]
  interval_cases fd <;> interval_cases j <;> rfl

theorem update_closed {fd : ℕ} (hfd : fd < 3) (ch : Channel ShFile) :
    Function.update (Function.update io.fds fd none) fd (some ch) = (io.redirect fd ch).fds := by
  funext j
  interval_cases fd <;> rcases j with _ | _ | _ | j <;> rfl

theorem lowest_fds (hn : 4 < nofile) : lowest nofile io.fds = some 3 := by
  refine firstIndex_eq (by omega) rfl fun j hj => ?_
  interval_cases j <;> rfl

theorem lowest_piped (ch : Channel ShFile) (hn : 4 < nofile) :
    lowest nofile (Function.update io.fds 3 (some ch)) = some 4 := by
  refine firstIndex_eq hn rfl fun j hj => ?_
  interval_cases j <;> rfl

/-- The descriptors of a process that has made a pipe. -/
def Io.piped (io : Io) (p : Pid) (n : ℕ) : Fds ShFile :=
  Function.update (Function.update io.fds 3 (some (.readEnd p n))) 4 (some (.writeEnd p n))

theorem closed_piped : Function.update (Function.update (io.piped p n) 3 none) 4 none = io.fds := by
  funext j
  rcases j with _ | _ | _ | _ | _ | j <;> rfl

theorem lowest_left (hn : 4 < nofile) :
    lowest nofile (Function.update (io.piped p n) 1 none) = some 1 := by
  refine firstIndex_eq (by omega) rfl fun j hj => ?_
  interval_cases j
  rfl

theorem left_fds : Function.update (Function.update (Function.update (Function.update
    (io.piped p n) 1 none) 1 (some (.writeEnd p n))) 3 none) 4 none =
    ({ io with stdout := .writeEnd p n } : Io).fds := by
  funext j
  rcases j with _ | _ | _ | _ | _ | j <;> rfl

theorem lowest_right (hn : 4 < nofile) :
    lowest nofile (Function.update (io.piped p n) 0 none) = some 0 :=
  firstIndex_eq (by omega) rfl fun j hj => by omega

theorem right_fds : Function.update (Function.update (Function.update (Function.update
    (io.piped p n) 0 none) 0 (some (.readEnd p n))) 3 none) 4 none =
    ({ io with stdin := .readEnd p n } : Io).fds := by
  funext j
  rcases j with _ | _ | _ | _ | _ | j <;> rfl

end fds

/-! ### The program as calls -/

section programs

variable {α : Type}

theorem sys_bind (c : Call ShFile (List Text)) (f : Ans c → ShellM α) :
    (sys c >>= f) = .call c f := rfl

theorem fork1_bind (f : Bool → Script) :
    (fork1 >>= f) = .call .fork fun (r : Forked) =>
      match r with
      | .failed => panicMessage "fork"
      | .child => f true
      | .parent => f false := by
  refine congrArg (Prog.call Call.fork) (funext fun (r : Forked) => ?_)
  cases r <;> rfl

theorem panicMessage_eq (s : String) :
    (panicMessage s : Script) = .call (.print 2 (s ++ "\n")) fun _ => .fail 1 := rfl

end programs

/-! ### The jobs are done -/

/-- The process is in the pipeline that the channel belongs to, at the end where it is used. -/
def Placed (p : Pid) : Channel ShFile → Prop
  | .file _ => True
  | .readEnd q n => ∃ r, p = r ++ (n + 2) :: q
  | .writeEnd q n => ∃ r, p = r ++ (n + 1) :: q

theorem Placed.below {p : Pid} {ch : Channel ShFile} (h : Placed p ch) (i : ℕ) :
    Placed (i :: p) ch := by
  cases ch with
  | file f => trivial
  | readEnd q n =>
    obtain ⟨r, rfl⟩ := h
    exact ⟨i :: r, rfl⟩
  | writeEnd q n =>
    obtain ⟨r, rfl⟩ := h
    exact ⟨i :: r, rfl⟩

structure Io.Placed (io : Io) (p : Pid) : Prop where
  stdin : Shell.Placed p io.stdin
  stdout : Shell.Placed p io.stdout
  stderr : Shell.Placed p io.stderr

theorem Io.Placed.below {io : Io} {p : Pid} (h : io.Placed p) (i : ℕ) : io.Placed (i :: p) :=
  ⟨h.stdin.below i, h.stdout.below i, h.stderr.below i⟩

theorem Io.Placed.of_fds {io : Io} {p : Pid} {fd : ℕ} {ch : Channel ShFile} (h : io.Placed p)
    (hch : io.fds fd = some ch) : Shell.Placed p ch := by
  rcases fd with _ | _ | _ | fd
  · exact Option.some.inj hch ▸ h.stdin
  · exact Option.some.inj hch ▸ h.stdout
  · exact Option.some.inj hch ▸ h.stderr
  · cases hch

theorem Io.Placed.left {io : Io} {p : Pid} (h : io.Placed p) (n : ℕ) :
    ({ io with stdout := .writeEnd p n } : Io).Placed ((n + 1) :: p) :=
  ⟨h.stdin.below _, ⟨[], rfl⟩, h.stderr.below _⟩

theorem Io.Placed.right {io : Io} {p : Pid} (h : io.Placed p) (n : ℕ) :
    ({ io with stdin := .readEnd p n } : Io).Placed ((n + 2) :: p) :=
  ⟨⟨[], rfl⟩, h.stdout.below _, h.stderr.below _⟩

/-- The redirections are of standard channels. -/
def Cmd.StdRedirs {α : Type*} : Cmd α → Prop
  | .exec _ => True
  | .redir cmd target => target.fd < 3 ∧ cmd.StdRedirs
  | .pipe left right => left.StdRedirs ∧ right.StdRedirs
  | .list left right => left.StdRedirs ∧ right.StdRedirs
  | .back cmd => cmd.StdRedirs

/-- The `exec` is one of the jobs. -/
def IsJob (all : List Job) (p : Pid) (argv : List Text) (fds : Fds ShFile) (ended : Set Pid) :
    Prop :=
  ∃ j ∈ all, j.pid = p ∧ j.argv = argv ∧ j.io.fds = fds ∧ ∀ q ∈ j.after, q ∈ ended

/-- What is open while a process waits. -/
def OnlyStd (p : Pid) (fds : Fds ShFile) : Prop := ∃ io : Io, fds = io.fds ∧ io.Placed p

/-- A job as it is seen. -/
def Job.deed (j : Job) : Pid × List Text × Fds ShFile := (j.pid, j.argv, j.io.fds)

/-- What a process is to do: some jobs, for which it makes children that it waits for. -/
structure Has (all js : List Job) (ws : List Pid) (io : Io) (after : List Pid)
    (v : View ShFile (List Text)) : Prop where
  fds : v.fds = io.fds
  placed : io.Placed v.pid
  kids : v.kids = fun _ => none
  start : ∀ q ∈ after, q ∈ v.ended
  jobs : ∀ j ∈ js, j ∈ all
  goal : ∀ q ∈ v.goal, q ∈ v.ended ∨ q ∈ ws
  owes : ∀ x ∈ v.owes, ∃ j ∈ js, j.deed = x

/-- What a process that runs a command is to do. -/
def HasCmd (all : List Job) (cmd : Cmd Text) (io : Io) (after : List Pid)
    (v : View ShFile (List Text)) : Prop :=
  Has all (jobs cmd v.pid v.next io after) (waitsFor cmd v.pid v.next) io after v

theorem waitsFor_below {q : Pid} : ∀ (cmd : Cmd Text) (p : Pid) (n : ℕ), q ∈ waitsFor cmd p n →
    ∃ i r, n ≤ i ∧ q = r ++ i :: p := by
  intro cmd
  induction cmd with
  | exec argv =>
    intro p n h
    cases h
  | redir cmd target ih => exact ih
  | list left right ihl ihr =>
    intro p n h
    simp only [waitsFor, List.cons_append, List.mem_cons, List.mem_append] at h
    rcases h with rfl | h | h
    · exact ⟨n, [], le_rfl, rfl⟩
    · obtain ⟨i, r, -, rfl⟩ := ihl _ _ h
      exact ⟨n, r ++ [i], le_rfl, by simp⟩
    · obtain ⟨i, r, hi, rfl⟩ := ihr _ _ h
      exact ⟨i, r, by omega, rfl⟩
  | pipe left right ihl ihr =>
    intro p n h
    simp only [waitsFor, List.cons_append, List.mem_cons, List.mem_append] at h
    rcases h with rfl | h | rfl | h
    · exact ⟨n + 1, [], by omega, rfl⟩
    · obtain ⟨i, r, -, rfl⟩ := ihl _ _ h
      exact ⟨n + 1, r ++ [i], by omega, by simp⟩
    · exact ⟨n + 2, [], by omega, rfl⟩
    · obtain ⟨i, r, -, rfl⟩ := ihr _ _ h
      exact ⟨n + 2, r ++ [i], by omega, by simp⟩
  | back cmd ih =>
    intro p n h
    cases h

section meets

variable {nofile : ℕ} {all js : List Job} {v : View ShFile (List Text)} {io : Io}
  {ws after : List Pid} {cmd left right : Cmd Text}

/-- `PANIC` -/
theorem meets_panic (hs : v.Settled) (ho : v.owes = ∅) (s : String) :
    Meets nofile (IsJob all) OnlyStd v (panicMessage s) := by
  rw [panicMessage_eq]
  exact .print (.exit hs ho)

theorem settled_forkless : v.forkless.Settled := fun q _ => Or.inl (Set.mem_univ q)

theorem Has.hasCmd {p : Pid} {n : ℕ}
    (h : Has all (Shell.jobs cmd p n io after) (waitsFor cmd p n) io after v) (hpid : v.pid = p)
    (hnext : v.next = n) : HasCmd all cmd io after v := by
  rwa [HasCmd, hpid, hnext]

theorem HasCmd.settled (h : HasCmd all cmd io after v) : v.Settled := fun q hq =>
  (h.goal q hq).imp_right (waitsFor_below cmd v.pid v.next)

theorem Has.owes_nil (h : Has all [] ws io after v) : v.owes = ∅ := by
  refine Set.eq_empty_iff_forall_notMem.mpr fun x hx => ?_
  obtain ⟨j, hj, -⟩ := h.owes x hx
  cases hj

/-- What a child is to do. -/
theorem Has.child {io' : Io} {js' : List Job} {ws' : List Pid} (h : Has all js ws io after v)
    (hplaced : io'.Placed (v.next :: v.pid)) (hfds : v.fds = io'.fds)
    (hjobs : ∀ j ∈ js', j ∈ all) :
    Has all js' ws' io' after (v.child {q | q ∈ ws'} {x | ∃ j ∈ js', j.deed = x}) :=
  ⟨hfds, hplaced, rfl, h.start, hjobs, fun _ hq => Or.inr hq, fun _ hx => hx⟩

theorem Has.only_kid {goal goal' : Set Pid} {owes : Set (Pid × List Text × Fds ShFile)} {i : ℕ}
    (h : Has all js ws io after v) (hkid : (v.parent goal owes).kids i = some goal') :
    i = v.next ∧ goal = goal' := by
  by_cases hi : i = v.next
  · subst hi
    rw [View.parent_kids_next] at hkid
    exact ⟨rfl, Option.some.inj hkid⟩
  · rw [View.parent_kids_of_ne _ _ _ hi, h.kids] at hkid
    cases hkid

theorem Has.no_kid (goal : Set Pid) (owes : Set (Pid × List Text × Fds ShFile))
    (h : Has all js ws io after v) :
    ((v.parent goal owes).waited v.next goal).kids = fun _ => none := by
  funext i
  by_cases hi : i = v.next
  · rw [hi]
    exact View.waited_kids_self ..
  · rw [View.waited_kids_of_ne _ _ hi, View.parent_kids_of_ne _ _ _ hi, h.kids]

/-- A child runs something, and then the process itself something else. -/
theorem meets_forkWait {first second : Script} {js' : List Job} {ws' : List Pid}
    (h : Has all (js ++ js') ((v.next :: v.pid) :: ws ++ ws') io after v)
    (hfirst : ∀ v', v'.pid = v.next :: v.pid → v'.next = 0 → Has all js ws io after v' →
      Meets nofile (IsJob all) OnlyStd v' first)
    (hsecond : ∀ v', v'.pid = v.pid → v'.next = v.next + 1 → v'.goal = v.goal →
      Has all js' ws' io (after ++ (v.next :: v.pid) :: ws) v' →
      Meets nofile (IsJob all) OnlyStd v' second) :
    Meets nofile (IsJob all) OnlyStd v (do
      if ← fork1 then first
      else
        sys .wait
        second : Script) := by
  rw [fork1_bind]
  refine .fork _ _ {x | ∃ j ∈ js', j.deed = x} (fun x hx => ?_)
    (hfirst _ rfl rfl (h.child (h.placed.below _) h.fds fun j hj =>
      h.jobs j (List.mem_append_left _ hj)))
    (.wait ⟨io, h.fds, h.placed⟩ (fun i goal hkid => ?_) fun hnone => ?_)
    (meets_panic settled_forkless rfl _)
  · obtain ⟨j, hj, rfl⟩ := h.owes x hx
    rcases List.mem_append.mp hj with hj | hj
    · exact Or.inl ⟨j, hj, rfl⟩
    · exact Or.inr ⟨j, hj, rfl⟩
  · obtain ⟨rfl, rfl⟩ := h.only_kid hkid
    refine hsecond _ rfl rfl rfl ⟨h.fds, h.placed, h.no_kid _ _, fun q hq => ?_,
      fun j hj => h.jobs j (List.mem_append_right _ hj), fun q hq => ?_, fun x hx => hx⟩
    · rcases List.mem_append.mp hq with hq | hq
      · exact Or.inl (h.start q hq)
      · exact Or.inr (List.mem_cons.mp hq)
    · rcases h.goal q hq with hq | hq
      · exact Or.inl (Or.inl hq)
      · rcases List.mem_append.mp hq with hq | hq
        · exact Or.inl (Or.inr (List.mem_cons.mp hq))
        · exact Or.inr hq
  · have hkid := hnone v.next
    rw [View.parent_kids_next] at hkid
    cases hkid

theorem meets_exec {argv : List Text} (h : HasCmd all (.exec argv) io after v) :
    Meets nofile (IsJob all) OnlyStd v (runcmd (.exec argv)) := by
  cases argv with
  | nil =>
    exact .exit h.settled (Has.owes_nil h)
  | cons file args =>
    rw [runcmd, sys_bind]
    refine .exec ⟨_, h.jobs _ List.mem_cons_self, rfl, rfl, h.fds.symm, h.start⟩ h.settled
      (fun x hx => ?_) (.print (.exit h.settled rfl))
    obtain ⟨j, hj, rfl⟩ := h.owes x hx
    obtain rfl := List.mem_singleton.mp hj
    rw [h.fds]
    rfl

theorem Io.Placed.redirect {p : Pid} {fd : ℕ} {f : ShFile} (h : io.Placed p) :
    (io.redirect fd (.file f)).Placed p := by
  rcases fd with _ | _ | fd
  · exact ⟨trivial, h.stdout, h.stderr⟩
  · exact ⟨h.stdin, trivial, h.stderr⟩
  · exact ⟨h.stdin, h.stdout, trivial⟩

theorem meets_redir {target : Redirect Text} (hn : 4 < nofile) (hfd : target.fd < 3)
    (ih : ∀ {v io after}, HasCmd all cmd io after v →
      Meets nofile (IsJob all) OnlyStd v (runcmd cmd))
    (h : HasCmd all (.redir cmd target) io after v) :
    Meets nofile (IsJob all) OnlyStd v (runcmd (.redir cmd target)) := by
  rw [runcmd, sys_bind]
  refine .close (.openFile (fun fd hlow => ?_) (.print (.exit h.settled rfl)))
  have hlow' : lowest nofile (Function.update v.fds target.fd none) = some fd := hlow
  rw [h.fds, lowest_closed hfd hn] at hlow'
  obtain rfl := Option.some.inj hlow'
  refine ih ⟨?_, h.placed.redirect, h.kids, h.start, h.jobs, h.goal, h.owes⟩
  rw [← update_closed hfd, ← h.fds]
  rfl

theorem meets_back (ih : ∀ {v io after}, HasCmd all cmd io after v →
      Meets nofile (IsJob all) OnlyStd v (runcmd cmd)) (h : HasCmd all (.back cmd) io after v) :
    Meets nofile (IsJob all) OnlyStd v (runcmd (.back cmd)) := by
  have hchild : HasCmd all cmd io after (v.child {q | q ∈ waitsFor cmd (v.next :: v.pid) 0}
      {x | ∃ j ∈ jobs cmd (v.next :: v.pid) 0 io after, j.deed = x}) :=
    Has.child h (h.placed.below _) h.fds h.jobs
  rw [runcmd, fork1_bind]
  refine .fork _ _ ∅ (fun x hx => Or.inl (h.owes x hx)) (ih hchild) (.exit (fun q hq => ?_) rfl)
    (meets_panic settled_forkless rfl _)
  rcases h.goal q hq with hq | hq
  · exact Or.inl hq
  · cases hq

theorem meets_list
    (ihl : ∀ {v io after}, HasCmd all left io after v →
      Meets nofile (IsJob all) OnlyStd v (runcmd left))
    (ihr : ∀ {v io after}, HasCmd all right io after v →
      Meets nofile (IsJob all) OnlyStd v (runcmd right))
    (h : HasCmd all (.list left right) io after v) :
    Meets nofile (IsJob all) OnlyStd v (runcmd (.list left right)) := by
  rw [runcmd]
  exact meets_forkWait h (fun v' hpid hnext hl => ihl (hl.hasCmd hpid hnext))
    fun v' hpid hnext _ hr => ihr (hr.hasCmd hpid hnext)

/-- `wait`, for the last child -/
theorem meets_wait_one (a : ℕ) (goal : Set Pid) {st : ℕ} (hw : OnlyStd v.pid v.fds)
    (hkids : v.kids = Function.update (fun _ => none) a (some goal))
    (hgoal : ∀ q ∈ v.goal, q ∈ v.ended ∨ q ∈ insert (a :: v.pid) goal) (ho : v.owes = ∅) :
    Meets nofile (IsJob all) OnlyStd v (.call .wait fun _ => .fail st) := by
  refine .wait hw (fun i g hkid => .exit (fun q hq => ?_) ho) fun hnone => ?_
  · rw [hkids] at hkid
    by_cases hi : i = a
    · subst hi
      rw [Function.update_self] at hkid
      obtain rfl := Option.some.inj hkid
      exact Or.inl (hgoal q hq)
    · rw [Function.update_of_ne hi] at hkid
      cases hkid
  · have hkid := hnone a
    rw [hkids, Function.update_self] at hkid
    cases hkid

/-- `wait` twice, for the last two children -/
theorem meets_wait_two {a b : ℕ} {goal goal' : Set Pid} {st : ℕ} (hab : a ≠ b)
    (hw : OnlyStd v.pid v.fds)
    (hkids : v.kids =
      Function.update (Function.update (fun _ => none) a (some goal)) b (some goal'))
    (hgoal : ∀ q ∈ v.goal,
      q ∈ v.ended ∨ q ∈ insert (a :: v.pid) goal ∨ q ∈ insert (b :: v.pid) goal')
    (ho : v.owes = ∅) :
    Meets nofile (IsJob all) OnlyStd v (.call .wait fun _ => .call .wait fun _ => .fail st) := by
  refine .wait hw (fun i g hkid => ?_) fun hnone => ?_
  · rw [hkids] at hkid
    by_cases hib : i = b
    · -- the one that is left is `a`
      subst hib
      rw [Function.update_self] at hkid
      obtain rfl := Option.some.inj hkid
      refine meets_wait_one a goal hw ?_ (fun q hq => ?_) ho
      · funext j
        by_cases hj : j = i
        · subst hj
          rw [View.waited_kids_self, Function.update_of_ne (Ne.symm hab)]
        · rw [View.waited_kids_of_ne _ _ hj, hkids, Function.update_of_ne hj]
      · rcases hgoal q hq with hq | hq | hq
        · exact Or.inl (Or.inl hq)
        · exact Or.inr hq
        · exact Or.inl (Or.inr hq)
    · rw [Function.update_of_ne hib] at hkid
      by_cases hia : i = a
      · subst hia
        rw [Function.update_self] at hkid
        obtain rfl := Option.some.inj hkid
        refine meets_wait_one b goal' hw ?_ (fun q hq => ?_) ho
        · funext j
          by_cases hj : j = i
          · subst hj
            rw [View.waited_kids_self, Function.update_of_ne hab]
          · rw [View.waited_kids_of_ne _ _ hj, hkids]
            by_cases hjb : j = b
            · rw [hjb, Function.update_self, Function.update_self]
            · rw [Function.update_of_ne hjb, Function.update_of_ne hj, Function.update_of_ne hjb]
        · rcases hgoal q hq with hq | hq | hq
          · exact Or.inl (Or.inl hq)
          · exact Or.inl (Or.inr hq)
          · exact Or.inr hq
      · rw [Function.update_of_ne hia] at hkid
        cases hkid
  · have hkid := hnone b
    rw [hkids, Function.update_self] at hkid
    cases hkid

/-- A child in a pipeline puts its end in the place of a standard channel. -/
theorem meets_plug {fd src n : ℕ} {p : Pid} {ch : Channel ShFile} {io' : Io}
    (hsrc : Function.update (io.piped p n) fd none src = some ch)
    (hlow : lowest nofile (Function.update (io.piped p n) fd none) = some fd)
    (hfds : Function.update (Function.update (Function.update (Function.update (io.piped p n)
      fd none) fd (some ch)) 3 none) 4 none = io'.fds) (hv : v.fds = io.piped p n)
    (h : Meets nofile (IsJob all) OnlyStd (v.withFds io'.fds) (runcmd cmd)) :
    Meets nofile (IsJob all) OnlyStd v (do
      sys (.close fd)
      let _ ← sys (.dup src)
      sys (.close 3)
      sys (.close 4)
      runcmd cmd : Script) := by
  obtain ⟨pid, next, fds, kids, ended, goal, owes⟩ := v
  obtain rfl : fds = io.piped p n := hv
  refine .close (.dup hsrc hlow (.close (.close ?_)))
  rw [← hfds] at h
  exact h

theorem meets_pipe (hn : 4 < nofile)
    (ihl : ∀ {v io after}, HasCmd all left io after v →
      Meets nofile (IsJob all) OnlyStd v (runcmd left))
    (ihr : ∀ {v io after}, HasCmd all right io after v →
      Meets nofile (IsJob all) OnlyStd v (runcmd right))
    (h : HasCmd all (.pipe left right) io after v) :
    Meets nofile (IsJob all) OnlyStd v (runcmd (.pipe left right)) := by
  have hjobs := h.jobs
  rw [jobs] at hjobs
  have howes := h.owes
  rw [jobs] at howes
  have hgoal := h.goal
  rw [waitsFor] at hgoal
  have hsettled : v.excused.Settled := h.settled
  have hstart := h.start
  have hplaced := h.placed
  obtain ⟨p, n, fds, kids, ended, goal, owes⟩ := v
  obtain rfl : fds = io.fds := h.fds
  obtain rfl : kids = fun _ => none := h.kids
  rw [runcmd, sys_bind]
  refine .pipe (fun r w hr hw => ?_) (meets_panic hsettled rfl _)
  obtain rfl : 3 = r := Option.some.inj ((lowest_fds hn).symm.trans hr)
  obtain rfl : 4 = w := Option.some.inj ((lowest_piped _ hn).symm.trans hw)
  simp only [fork1_bind]
  let leftJobs := jobs left ((n + 1) :: p) 0 { io with stdout := .writeEnd p n } after
  let rightJobs := jobs right ((n + 2) :: p) 0 { io with stdin := .readEnd p n } after
  refine .fork {q | q ∈ waitsFor left ((n + 1) :: p) 0} {x | ∃ j ∈ leftJobs, j.deed = x}
    {x | ∃ j ∈ rightJobs, j.deed = x} (fun x hx => ?_) ?_
    (.fork {q | q ∈ waitsFor right ((n + 2) :: p) 0} {x | ∃ j ∈ rightJobs, j.deed = x} ∅
      (fun x hx => Or.inl hx) ?_ ?_ (meets_panic settled_forkless rfl _))
    (meets_panic settled_forkless rfl _)
  · obtain ⟨j, hj, rfl⟩ := howes x hx
    rcases List.mem_append.mp hj with hj | hj
    · exact Or.inl ⟨j, hj, rfl⟩
    · exact Or.inr ⟨j, hj, rfl⟩
  · -- the left child
    exact meets_plug rfl (lowest_left hn) left_fds rfl (ihl ⟨rfl, hplaced.left n, rfl, hstart,
      fun j hj => hjobs j (List.mem_append_left _ hj), fun q hq => Or.inr hq, fun x hx => hx⟩)
  · -- the right child
    exact meets_plug rfl (lowest_right hn) right_fds rfl (ihr ⟨rfl, hplaced.right n, rfl, hstart,
      fun j hj => hjobs j (List.mem_append_right _ hj), fun q hq => Or.inr hq, fun x hx => hx⟩)
  · -- the parent
    refine .close (.close (meets_wait_two (a := n + 1) (b := n + 2) (by omega)
      ⟨io, closed_piped, hplaced⟩ rfl (fun q hq => ?_) rfl))
    rcases hgoal q hq with hq | hq
    · exact Or.inl hq
    · rw [List.cons_append] at hq
      rcases List.mem_cons.mp hq with rfl | hq
      · exact Or.inr (Or.inl (Or.inl rfl))
      · rcases List.mem_append.mp hq with hq | hq
        · exact Or.inr (Or.inl (Or.inr hq))
        · exact Or.inr (Or.inr (List.mem_cons.mp hq))

theorem meets_runcmd (hn : 4 < nofile) : ∀ {cmd : Cmd Text} {v io after}, cmd.StdRedirs →
    HasCmd all cmd io after v → Meets nofile (IsJob all) OnlyStd v (runcmd cmd) := by
  intro cmd
  induction cmd with
  | exec argv => exact fun _ => meets_exec
  | redir cmd target ih => exact fun hc => meets_redir hn hc.1 (ih hc.2)
  | pipe left right ihl ihr => exact fun hc => meets_pipe hn (ihl hc.1) (ihr hc.2)
  | list left right ihl ihr => exact fun hc => meets_list (ihl hc.1) (ihr hc.2)
  | back cmd ih => exact fun hc => meets_back (ih hc)

/-- The channels of a job belong to the pipelines that its process is in. -/
theorem jobs_placed {j : Job} : ∀ {cmd : Cmd Text} {p : Pid} {n : ℕ} {io : Io} {after : List Pid},
    io.Placed p → j ∈ jobs cmd p n io after → j.io.Placed j.pid := by
  intro cmd
  induction cmd with
  | exec argv =>
    intro p n io after hio hj
    cases argv with
    | nil => cases hj
    | cons file args =>
      obtain rfl := List.mem_singleton.mp hj
      exact hio
  | redir cmd target ih => exact fun hio => ih hio.redirect
  | pipe left right ihl ihr =>
    intro p n io after hio hj
    rcases List.mem_append.mp hj with hj | hj
    · exact ihl (hio.left n) hj
    · exact ihr (hio.right n) hj
  | list left right ihl ihr =>
    intro p n io after hio hj
    rcases List.mem_append.mp hj with hj | hj
    · exact ihl (hio.below _) hj
    · exact ihr hio hj
  | back cmd ih => exact fun hio => ih (hio.below _)

end meets

end OsLab.Shell
