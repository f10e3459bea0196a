/-
The shell as a whole (`main` in `user/sh/main.c`): it reads command lines, and runs each in a
child that it waits for.

`lines` are what `fgets` stores, one line at a time; which these are depends on what the programs
leave of the input.  The shell is started with three descriptors, as `user/init/main.c` does it.

* `shellMain` — the program;
* `lineTree` — the tree of a line, if it has one in the grammar;
* `scriptJobs` — the programs that the lines are for;
* `shell_jobs` — the shell runs these programs and no others, in their order;
* `shell_descriptors` — no program has an end of a pipe open that it is not for.
-/
import OsLab.User.RunCmd
import OsLab.User.ShellComplete
import OsLab.Kernel.SysFile

namespace OsLab.Shell

open Processes

/-! ### The tree of a line -/

def Cmd.map {α β : Type*} (f : α → β) : Cmd α → Cmd β
  | .exec argv => .exec (argv.map f)
  | .redir cmd target => .redir (cmd.map f) ⟨f target.file, target.mode, target.fd⟩
  | .pipe left right => .pipe (left.map f) (right.map f)
  | .list left right => .list (left.map f) (right.map f)
  | .back cmd => .back (cmd.map f)

/-- The string that a pointer is to. -/
def readString (text : Text) (buf : Buffer) (a : Span) : Text :=
  ((List.range text.length).map fun k => buf (Text.offset text a.q + k)).takeWhile (· ≠ '\x00')

/-- `parsecmd`, with fuel enough -/
def parseLine (buf : Text) : Except Stop (Cmd Text) := do
  let (cmd, mem) ← parsecmd (4 * buf.length + 4) buf 0
  return cmd.map (readString buf mem)

/-- The tree of a line. -/
def lineTree (buf : Text) : Option (Cmd Text) := (parseLine buf).toOption

/-! ### The program -/

/-- `runcmd(parsecmd(buf))` -/
def runLine (buf : Text) : Script :=
  match parseLine buf with
  | .ok cmd => runcmd cmd
  | .error (.exit message) => panicMessage message
  | .error .fuel => exit 1

/-- What the shell prints of its arguments and its environment. -/
def greet (argv : List String) (testEnv : Option String) : List String :=
  (argv.zipIdx.map fun arg =>
    "sh: argv[" ++ toString arg.2 ++ "] = '" ++ arg.1 ++ "'\n") ++
    [match testEnv with
      | some value => "sh: testenv = '" ++ value ++ "'\n"
      | none => "sh: testenv not found!\n"]

/-- `printf`, for each of the texts -/
def printAll : List String → Script → Script
  | [], next => next
  | s :: texts, next => do
    sys (.print 1 s)
    printAll texts next

/-- The loop that opens the console.  There are four turns at most, since each but the last opens
one of the descriptors 0, 1 and 2. -/
def openConsole : ℕ → Script → Script
  | 0, next => next
  | turns + 1, next => do
    match (← sys (.openFile .console) : Option ℕ) with
    | none => next
    | some fd =>
      if fd ≥ 3 then
        sys (.close fd)
        next
      else openConsole turns next

/-- The string in the buffer after `fgets`. -/
def bufOf (line : Text) : Text := line.takeWhile (· ≠ '\x00')

/-- `buf[0] == 'c' && buf[1] == 'd' && buf[2] == ' '` -/
def isCd (buf : Text) : Bool := buf.take 3 = ['c', 'd', ' ']

/-- The loop of `main` -/
def readCommands : List Text → Script
  | [] => do
    sys (.print 2 "$ ")
    exit 0
  | line :: lines => do
    sys (.print 2 "$ ")
    if bufOf line = [] then exit 0
    else if isCd (bufOf line) then
      let path := String.ofList ((bufOf line).dropLast.drop 3)
      if ← sys (.chdir path) then readCommands lines
      else
        sys (.print 2 ("cannot cd " ++ path ++ "\n"))
        readCommands lines
    else if ← fork1 then runLine (bufOf line)
    else
      sys .wait
      readCommands lines

/-- `main` -/
def shellMain (argv : List String) (testEnv : Option String) (lines : List Text) : Script :=
  printAll (greet argv testEnv) (openConsole 4 (readCommands lines))

/-! ### What the lines are for -/

/-- The jobs of the lines, when the shell has made `n` children before. -/
def scriptJobs : List Text → ℕ → Io → List Pid → List Job
  | [], _, _, _ => []
  | line :: lines, n, io, after =>
    if bufOf line = [] then []
    else if isCd (bufOf line) then scriptJobs lines n io after
    else
      match lineTree (bufOf line) with
      | some cmd => jobs cmd [n] 0 io after ++
          scriptJobs lines (n + 1) io (after ++ [n] :: waitsFor cmd [n] 0)
      | none => scriptJobs lines (n + 1) io (after ++ [[n]])

/-! ### The tree is the one of the grammar -/

section trees

variable {text buf w : Text} {mem : Buffer} {a : Span} {c : Cmd Span} {d d' : Cmd Text}

theorem StringAt.readString (h : StringAt text mem a w) (hlen : w.length ≤ text.length) :
    readString text mem a = w := by
  obtain ⟨m, hm⟩ := Nat.exists_eq_add_of_le hlen
  rw [Shell.readString, hm, List.range_add, List.map_append]
  have hword : (List.range w.length).map (fun k => mem (Text.offset text a.q + k)) = w := by
    refine List.ext_getElem (by simp) fun k _ hk => ?_
    rw [List.getElem_map, List.getElem_range]
    exact h.chars k _ (List.getElem?_eq_getElem hk)
  rw [hword, List.takeWhile_append_of_pos]
  · -- the string ends here
    cases m with
    | zero => simp
    | succ m =>
      rw [List.range_succ_eq_map, List.map_cons, List.map_cons, List.takeWhile_cons_of_neg]
      · exact List.append_nil w
      · simp [h.nul]
  · intro c hc
    simp only [ne_eq, decide_not, Bool.not_eq_eq_eq_not, Bool.not_true, decide_eq_false_iff_not]
    rintro rfl
    exact h.noNul hc

theorem map_readString (h : Cmd.Rel (fun a w => readString text mem a = w) c d) :
    c.map (readString text mem) = d := by
  have hwords {xs : List Span} {ys : List Text}
      (h : List.Forall₂ (fun a w => readString text mem a = w) xs ys) :
      xs.map (readString text mem) = ys := by
    induction h with
    | nil => rfl
    | cons hw _ ih => rw [List.map_cons, hw, ih]
  induction h with
  | exec h => exact congrArg Cmd.exec (hwords h)
  | redir _ hfile ih => rw [Cmd.map, ih, hfile]
  | pipe _ _ ihl ihr => rw [Cmd.map, ihl, ihr]
  | list _ _ ihl ihr => rw [Cmd.map, ihl, ihr]
  | back _ ih => rw [Cmd.map, ih]

/-- An accepted line has its tree. -/
theorem parseLine_of_accepted (hnul : '\x00' ∉ buf) (h : Accepted buf 0 d) :
    parseLine buf = .ok d := by
  obtain ⟨N, c, hrel, hrun⟩ := parsecmd_complete h
  have hends := parsecmd_ends (i := 0) (le_refl (4 * buf.length + 4))
  have hparse : parsecmd (4 * buf.length + 4) buf 0 = .ok (c, nulterminate buf c buf.buffer) := by
    rcases parsecmd_grows (le_max_right N (4 * buf.length + 4)) buf 0 with hfuel | hsame
    · exact absurd hfuel hends
    · rw [← hrun _ (le_max_left N _), hsame]
  obtain ⟨hintact, hshows⟩ := nulterminate_shows hrel (intact_buffer buf)
  have hstrings :
      Cmd.Rel (fun a w => readString buf (nulterminate buf c buf.buffer) a = w) c d := by
    refine hshows.imp fun a w ha => (ha.1.stringAt hintact ha.2 hnul).readString ?_
    have hle := ha.1.inside.length_le
    rw [ha.1.split, List.length_append] at hle
    omega
  rw [parseLine, hparse]
  exact congrArg Except.ok (map_readString hstrings)

/-- The tree of a line is that of its derivation, if there is one and the shell has room. -/
theorem lineTree_iff (hnul : '\x00' ∉ buf) : lineTree buf = some d ↔ Accepted buf 0 d := by
  constructor
  · intro h
    rw [lineTree] at h
    cases hline : parseLine buf with
    | error e =>
      rw [hline] at h
      cases h
    | ok d' =>
      rw [hline] at h
      obtain rfl := Option.some.inj h
      obtain ⟨⟨c, mem⟩, hparse, -⟩ := bind_ok hline
      obtain ⟨d', hd'⟩ := parsecmd_sound hparse
      have heq := (parseLine_of_accepted hnul hd').symm.trans hline
      rwa [← Except.ok.inj heq]
  · intro h
    rw [lineTree, parseLine_of_accepted hnul h]
    rfl

theorem notMem_bufOf (line : Text) : '\x00' ∉ bufOf line := by
  intro h
  simpa using List.mem_takeWhile_imp h

theorem stdRedirs_redirect {rs : List (Redirect Text)} (hd : d.StdRedirs)
    (hrs : ∀ r ∈ rs, r.fd < 3) : (d.redirect rs).StdRedirs := by
  induction rs generalizing d with
  | nil => exact hd
  | cons r rs ih =>
    exact ih ⟨hrs r List.mem_cons_self, hd⟩ fun r' hr' => hrs r' (List.mem_cons_of_mem _ hr')

theorem stdRedirs_backs (n : ℕ) (hd : d.StdRedirs) : (d.backs n).StdRedirs := by
  induction n generalizing d with
  | zero => exact hd
  | succ n ih => exact ih hd

theorem redirection_fd {op : Token} {mode : OpenMode} {fd : ℕ}
    (h : op.redirection = some (mode, fd)) : fd < 3 := by
  rw [Token.redirection.eq_def] at h
  split at h
  · obtain ⟨-, rfl⟩ := Prod.mk.inj (Option.some.inj h)
    decide
  · obtain ⟨-, rfl⟩ := Prod.mk.inj (Option.some.inj h)
    decide
  · obtain ⟨-, rfl⟩ := Prod.mk.inj (Option.some.inj h)
    decide
  · cases h

theorem Redirs.fd_lt {ts : List Token} {rs : List (Redirect Text)} (h : Redirs ts rs) :
    ∀ r ∈ rs, r.fd < 3 := by
  induction h with
  | nil => exact fun r hr => by cases hr
  | cons hop _ ih =>
    intro r hr
    rcases List.mem_cons.mp hr with rfl | hr
    · exact redirection_fd hop
    · exact ih r hr

theorem Args.fd_lt {ts : List Token} {ws : List Text} {rs : List (Redirect Text)}
    (h : Args ts ws rs) : ∀ r ∈ rs, r.fd < 3 := by
  induction h with
  | nil => exact fun r hr => by cases hr
  | cons hr _ ih =>
    intro r hmem
    rcases List.mem_append.mp hmem with hmem | hmem
    · exact hr.fd_lt r hmem
    · exact ih r hmem

/-- The grammar has redirections of the standard channels only. -/
theorem Derives.stdRedirs {nt : Nonterminal} {ts : List Token} (h : Derives nt ts d) :
    d.StdRedirs := by
  induction h with
  | line _ n ih => exact stdRedirs_backs n ih
  | list _ n _ ih ih' => exact ⟨stdRedirs_backs n ih, ih'⟩
  | single _ ih => exact ih
  | pipe _ _ ih ih' => exact ⟨ih, ih'⟩
  | block _ hr ih => exact stdRedirs_redirect ih hr.fd_lt
  | exec hr ha =>
    refine stdRedirs_redirect trivial fun r hmem => ?_
    rcases List.mem_append.mp hmem with hmem | hmem
    · exact hr.fd_lt r hmem
    · exact ha.fd_lt r hmem

theorem lineTree_stdRedirs (hnul : '\x00' ∉ buf) (h : lineTree buf = some d) : d.StdRedirs := by
  obtain ⟨ts, -, hd⟩ := ((lineTree_iff hnul).mp h).derivable
  exact hd.stdRedirs

end trees

/-! ### The shell does the jobs of its lines -/

section meets

variable {nofile : ℕ} {all : List Job} {v : View ShFile (List Text)} {io : Io} {after : List Pid}
  {next : Script}

/-- A process without a goal may be said to wait for anything. -/
theorem Has.anyWaits {js : List Job} {ws ws' : List Pid} (h : Has all js ws io after v)
    (hgoal : v.goal = ∅) : Has all js ws' io after v :=
  ⟨h.fds, h.placed, h.kids, h.start, h.jobs, fun q hq => by simp [hgoal] at hq, h.owes⟩

theorem meets_runLine (hn : 4 < nofile) {buf : Text} {cmd : Cmd Text} (hnul : '\x00' ∉ buf)
    (htree : lineTree buf = some cmd) (h : HasCmd all cmd io after v) :
    Meets nofile (IsJob all) OnlyStd v (runLine buf) := by
  have hline : parseLine buf = .ok cmd := parseLine_of_accepted hnul ((lineTree_iff hnul).mp htree)
  rw [runLine, hline]
  exact meets_runcmd hn (lineTree_stdRedirs hnul htree) h

/-- A line without a tree: the child prints a message and exits. -/
theorem meets_badLine {buf : Text} (htree : lineTree buf = none) (hs : v.Settled)
    (ho : v.owes = ∅) : Meets nofile (IsJob all) OnlyStd v (runLine buf) := by
  rw [runLine]
  cases hline : parseLine buf with
  | ok cmd =>
    rw [lineTree, hline] at htree
    cases htree
  | error e =>
    cases e with
    | fuel => exact .exit hs ho
    | exit message => exact meets_panic hs ho message

theorem meets_readCommands (hn : 4 < nofile) (lines : List Text) :
    ∀ {v after}, v.goal = ∅ → Has all (scriptJobs lines v.next io after) [] io after v →
    v.pid = [] → Meets nofile (IsJob all) OnlyStd v (readCommands lines) := by
  induction lines with
  | nil =>
    intro v after hgoal h hpid
    refine .print (.exit (fun q hq => ?_) h.owes_nil)
    rw [hgoal] at hq
    cases hq
  | cons line lines ih =>
    intro v after hgoal h hpid
    have hsettled : v.Settled := fun q hq => by
      rw [hgoal] at hq
      cases hq
    rw [scriptJobs] at h
    rw [readCommands, sys_bind]
    refine .print ?_
    split at h
    · -- end of the input
      rename_i hbuf
      rw [if_pos hbuf]
      exact .exit hsettled h.owes_nil
    · rename_i hbuf
      rw [if_neg hbuf]
      split at h
      · rename_i hcd
        rw [if_pos hcd]
        refine .chdir fun found => ?_
        cases found with
        | true => exact ih hgoal h hpid
        | false => exact .print (ih hgoal h hpid)
      · rename_i hcd
        rw [if_neg hcd]
        have hnul := notMem_bufOf line
        have hchild : [v.next] = v.next :: v.pid := by rw [hpid]
        rw [hchild] at h
        cases htree : lineTree (bufOf line) with
        | some cmd =>
          rw [htree] at h
          have hwaits : Has all _ ((v.next :: v.pid) :: waitsFor cmd (v.next :: v.pid) 0 ++ []) io
            after v := h.anyWaits hgoal
          refine meets_forkWait hwaits (fun v' hpid' hnext hl => ?_)
            fun v' hpid' hnext hgoal' hr => ?_
          · exact meets_runLine hn hnul htree (hl.hasCmd hpid' hnext)
          · exact ih (hgoal'.trans hgoal) (hnext ▸ hr) (hpid'.trans hpid)
        | none =>
          rw [htree] at h
          have hwaits : Has all ([] ++ _) ((v.next :: v.pid) :: [] ++ []) io after v :=
            h.anyWaits hgoal
          refine meets_forkWait hwaits (fun v' hpid' hnext hl => ?_)
            fun v' hpid' hnext hgoal' hr => ?_
          · refine meets_badLine htree (fun q hq => Or.inl ?_) hl.owes_nil
            exact (hl.goal q hq).resolve_right List.not_mem_nil
          · exact ih (hgoal'.trans hgoal) (hnext ▸ hr) (hpid'.trans hpid)

theorem meets_printAll (texts : List String) (h : Meets nofile (IsJob all) OnlyStd v next) :
    Meets nofile (IsJob all) OnlyStd v (printAll texts next) := by
  induction texts with
  | nil => exact h
  | cons s texts ih => exact .print ih

/-- With three descriptors open, the loop opens a fourth and closes it. -/
theorem meets_openConsole (turns : ℕ) (hn : 4 < nofile) (hfds : v.fds = io.fds)
    (h : ∀ owes, owes ⊆ v.owes → Meets nofile (IsJob all) OnlyStd { v with owes := owes } next) :
    Meets nofile (IsJob all) OnlyStd v (openConsole (turns + 1) next) := by
  refine .openFile (fun fd hlow => ?_) (h ∅ (Set.empty_subset _))
  rw [hfds, lowest_fds hn] at hlow
  obtain rfl := Option.some.inj hlow
  refine .close ?_
  have hclosed :
      Function.update (Function.update v.fds 3 (some (.file .console))) 3 none = v.fds := by
    rw [Function.update_idem, hfds]
    exact Function.update_eq_self 3 io.fds
  have hv := h v.owes subset_rfl
  rw [View.withFds, View.withFds, hclosed]
  exact hv

end meets

/-! ### Runs of the shell -/

/-- The channels that `init` opens for the shell. -/
def Io.console : Io := ⟨.file .console, .file .console, .file .console⟩

def shellSystem (argv : List String) (testEnv : Option String) (lines : List Text) :
    System (World ShFile (List Text)) (Pid × Act) :=
  system nofile (shellMain argv testEnv lines) Io.console.fds

section runs

variable {argv : List String} {testEnv : Option String} {lines : List Text}
  {w : World ShFile (List Text)} {p : Pid} {pr : Processes.Proc ShFile (List Text)}

theorem four_lt_nofile : 4 < nofile := by decide

theorem Io.placed_console (p : Pid) : Io.console.Placed p := ⟨trivial, trivial, trivial⟩

theorem meets_shellMain (argv : List String) (testEnv : Option String) (lines : List Text) :
    Meets nofile (IsJob (scriptJobs lines 0 .console [])) OnlyStd
      (View.first Io.console.fds ∅ {x | ∃ j ∈ scriptJobs lines 0 .console [], j.deed = x})
      (shellMain argv testEnv lines) := by
  refine meets_printAll _ (meets_openConsole 3 four_lt_nofile rfl fun owes howes => ?_)
  refine meets_readCommands four_lt_nofile lines rfl ⟨rfl, Io.placed_console [], rfl,
    fun q hq => (by cases hq), fun j hj => hj, fun q hq => (by cases hq), howes⟩ rfl

theorem scriptJobs_placed {j : Job} (lines : List Text) : ∀ {n : ℕ} {after : List Pid},
    j ∈ scriptJobs lines n .console after → j.io.Placed j.pid := by
  induction lines with
  | nil =>
    intro n after hj
    cases hj
  | cons line lines ih =>
    intro n after hj
    rw [scriptJobs] at hj
    split at hj
    · cases hj
    · split at hj
      · exact ih hj
      · split at hj
        · rcases List.mem_append.mp hj with hj | hj
          · exact jobs_placed (Io.placed_console _) hj
          · exact ih hj
        · exact ih hj

/-- `a|b;c` and `d>e` -/
def twoLines : List Text := [['a', '|', 'b', ';', 'c', '\n'], ['d', '>', 'e', '\n']]

/-- The shell before it starts. -/
def twoLinesStart : World ShFile (List Text) :=
  ⟨fun p => if p = [] then some ⟨.code (shellMain ["sh"] none twoLines), Io.console.fds, 0⟩
    else none, []⟩

/-- A run to the `exec` of `b`, while `a` is running. -/
def pipelineRun : List (Pid × Act) :=
  List.replicate 6 ([], .go) ++ [([0], .go)] ++ List.replicate 3 ([0, 0], .go) ++
    List.replicate 5 ([1, 0, 0], .go) ++ List.replicate 5 ([2, 0, 0], .go)

/-- Then the two exit, and `c` follows. -/
def listRun : List (Pid × Act) :=
  [([0, 0], .go), ([0, 0], .go), ([1, 0, 0], .go), ([2, 0, 0], .go), ([0, 0], .reap 2),
    ([0, 0], .reap 1), ([0, 0], .go), ([0], .reap 0), ([0], .go)]

theorem reachable_twoLines {run : List (Pid × Act)}
    (h : (shellSystem ["sh"] none twoLines).exec (fun _ _ => True) twoLinesStart run = some w) :
    (shellSystem ["sh"] none twoLines).Reachable (fun _ _ => True) w :=
  ⟨twoLinesStart, rfl, System.leads_of_exec h⟩

/-- **The shell runs its command lines.**  In every run, with any calls that fail, each program
that a process goes on as is a job of a line, with the channels of the job, and starts when all
processes that have to be over before are so and do nothing any more, unless a `fork` has failed
before; no process goes on twice.  The run can go on until no process is alive; then all jobs
have been run, unless a call has failed. -/
theorem shell_jobs (argv : List String) (testEnv : Option String) (lines : List Text)
    (w : World ShFile (List Text))
    (h : (shellSystem argv testEnv lines).Reachable (fun _ _ => True) w) :
    let all := scriptJobs lines 0 .console []
    (∀ L p args fds L', w.log = L ++ (p, .exec args fds) :: L' →
      ∃ j ∈ all, j.pid = p ∧ j.argv = args ∧ j.io.fds = fds ∧ ∀ q ∈ j.after,
        (w.Over q ∧ ∀ e ∈ L, e.1 ≠ q) ∨ ∃ r, (r, .failed .fork) ∈ L') ∧
    (w.log.filterMap execOf).Nodup ∧
    ((∃ l w', w.step nofile l = some w') ∨ (∀ p pr, w.procs p = some pr → pr.alive = false) ∧
      ((∀ j ∈ all, (j.pid, .exec j.argv j.io.fds) ∈ w.log) ∨ ∃ r c, (r, .failed c) ∈ w.log)) := by
  have hmeets := meets_shellMain argv testEnv lines
  refine ⟨fun L p args fds L' hlog => ?_, (execsOnce_of_reachable h).nodup, ?_⟩
  · obtain ⟨ended, ⟨j, hj, hpid, hargv, hfds, hafter⟩, hover⟩ := hmeets.execs h L p args fds L' hlog
    exact ⟨j, hj, hpid, hargv, hfds, fun q hq => hover q (hafter q hq)⟩
  · by_cases halive : ∃ p pr, w.procs p = some pr ∧ pr.alive = true
    · obtain ⟨p, pr, hp, halive⟩ := halive
      obtain ⟨n, hn⟩ := exists_within h
      exact Or.inl (World.exists_step (m := n + 1) hn hp halive (by omega))
    · have hdead : ∀ p pr, w.procs p = some pr → pr.alive = false := fun p pr hp =>
        Bool.eq_false_iff.mpr fun h => halive ⟨p, pr, hp, h⟩
      refine Or.inr ⟨hdead, ?_⟩
      by_cases hfailed : ∃ r c, (r, .failed c) ∈ w.log
      · exact Or.inr hfailed
      · exact Or.inl fun j hj =>
          (hmeets.owed h hdead (x := j.deed) ⟨j, hj, rfl⟩).resolve_right hfailed

/-- The third program of the first line starts after the other two. -/
theorem shell_jobs_list : ∃ w : World ShFile (List Text),
    w.log.filterMap execOf = [[0], [2, 0, 0], [1, 0, 0]] ∧
    ∀ L p args fds L', w.log = L ++ (p, .exec args fds) :: L' →
      ∃ j ∈ scriptJobs twoLines 0 .console [], j.pid = p ∧ j.argv = args ∧ j.io.fds = fds ∧
        ∀ q ∈ j.after, (w.Over q ∧ ∀ e ∈ L, e.1 ≠ q) ∨ ∃ r, (r, .failed .fork) ∈ L' := by
  have hrun : ((shellSystem ["sh"] none twoLines).exec (fun _ _ => True) twoLinesStart
      (pipelineRun ++ listRun)).map (fun w => w.log.filterMap execOf) =
      some [[0], [2, 0, 0], [1, 0, 0]] := by
    decide +kernel
  obtain ⟨w, hw, hlog⟩ := Option.map_eq_some_iff.mp hrun
  exact ⟨w, hlog, (shell_jobs ["sh"] none twoLines w (reachable_twoLines hw)).1⟩

/-- **No end of a pipe is left open.**  A process that waits or has gone on as a program has the
three standard descriptors open and no others.  Where one of them is the end of a pipe, the process
is on that side of the pipeline: it is the child that is to write, or to read, or is below it. -/
theorem shell_descriptors (argv : List String) (testEnv : Option String) (lines : List Text)
    (w : World ShFile (List Text))
    (h : (shellSystem argv testEnv lines).Reachable (fun _ _ => True) w) (p : Pid)
    (pr : Processes.Proc ShFile (List Text)) (hp : w.procs p = some pr)
    (hlife : (∃ k, pr.life = .code (.call .wait k)) ∨ ∃ args, pr.life = .image args) :
    (∃ io : Io, pr.fds = io.fds) ∧
    (∀ fd q n, pr.fds fd = some (.writeEnd q n) → ∃ r, p = r ++ (n + 1) :: q) ∧
    ∀ fd q n, pr.fds fd = some (.readEnd q n) → ∃ r, p = r ++ (n + 2) :: q := by
  have hmeets := meets_shellMain argv testEnv lines
  obtain ⟨io, hfds, hplaced⟩ : OnlyStd p pr.fds := by
    rcases hlife with ⟨k, hlife⟩ | ⟨args, hlife⟩
    · exact hmeets.waits h hp hlife
    · obtain ⟨ended, j, hj, rfl, -, hfds, -⟩ := hmeets.images h hp hlife
      exact ⟨j.io, hfds.symm, scriptJobs_placed lines hj⟩
  rw [hfds]
  exact ⟨⟨io, rfl⟩, fun fd q n hch => hplaced.of_fds hch, fun fd q n hch => hplaced.of_fds hch⟩

/-- The second program of a pipeline reads from the first pipe of its parent, and the first is on
the other side. -/
theorem shell_descriptors_pipe :
    ∃ (w : World ShFile (List Text)) (pr : Processes.Proc ShFile (List Text)),
    w.procs [2, 0, 0] = some pr ∧ pr.fds 0 = some (.readEnd [0, 0] 0) ∧
    (∃ io : Io, pr.fds = io.fds) ∧
    ∀ fd q n, pr.fds fd = some (.writeEnd q n) → ∃ r, [2, 0, 0] = r ++ (n + 1) :: q := by
  have hrun : ((shellSystem ["sh"] none twoLines).exec (fun _ _ => True) twoLinesStart
      pipelineRun).bind (fun w => (w.procs [2, 0, 0]).map fun pr => (pr.fds 0, pr.life.program)) =
      some (some (.readEnd [0, 0] 0), some [['b']]) := by
    decide +kernel
  obtain ⟨w, hw, hrun⟩ := Option.bind_eq_some_iff.mp hrun
  obtain ⟨pr, hp, hrun⟩ := Option.map_eq_some_iff.mp hrun
  obtain ⟨hfds, hlife⟩ := Prod.mk.inj hrun
  obtain ⟨hio, hwrite, -⟩ := shell_descriptors ["sh"] none twoLines w (reachable_twoLines hw)
    [2, 0, 0] pr hp (Or.inr ⟨_, Processes.Life.program_eq_some hlife⟩)
  exact ⟨w, pr, hp, hfds, hio, hwrite⟩

end runs

end OsLab.Shell
