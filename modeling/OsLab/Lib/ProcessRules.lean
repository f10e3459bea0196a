/-
Rules for programs that fork and wait.

A `View` is what is known of a process while it runs its program: its descriptors, the
children that it has not waited for, the processes that are over, and what it has still to do.
`Meets` has a rule for each call.  A child is given a goal when it is made: the processes that
have to be over when it exits, on which its parent may rely after `wait`.

* `Meets` — the rules;
* `Meets.execs` — in every run each `exec` is as the rules allow it;
* `Meets.waits`, `Meets.images` — so are the descriptors of the processes that wait or have gone
  on as another program;
* `Meets.owed` — when nothing is alive and no call has failed all is done that was to do.
-/
import OsLab.Lib.Processes
import Mathlib.Data.Set.Basic

namespace OsLab.Processes

variable {F A : Type}

/-- What is known of a process that runs its program. -/
structure View (F A : Type) where
  pid : Pid
  next : ℕ
  fds : Fds F
  /-- the children that it has not waited for, with their goals -/
  kids : ℕ → Option (Set Pid)
  /-- processes that are over -/
  ended : Set Pid
  /-- the processes that have to be over when it exits -/
  goal : Set Pid
  /-- what it and the children that it will make have still to go on as -/
  owes : Set (Pid × A × Fds F)

namespace View

variable (v : View F A)

/-- A process that starts. -/
def first (fds : Fds F) (goal : Set Pid) (owes : Set (Pid × A × Fds F)) : View F A :=
  ⟨[], 0, fds, fun _ => none, ∅, goal, owes⟩

def withFds (fds : Fds F) : View F A := { v with fds := fds }

/-- After a call that has failed nothing has to be done. -/
def excused : View F A := { v with owes := ∅ }

/-- After a `fork` that has failed nothing is known of the others either. -/
def forkless : View F A := { v with ended := Set.univ, owes := ∅ }

def piped (fds : Fds F) : View F A := { v with fds := fds, next := v.next + 1 }

/-- The child that the next `fork` makes. -/
def child (goal : Set Pid) (owes : Set (Pid × A × Fds F)) : View F A :=
  ⟨v.next :: v.pid, 0, v.fds, fun _ => none, v.ended, goal, owes⟩

/-- The parent after a `fork`. -/
def parent (goal : Set Pid) (owes : Set (Pid × A × Fds F)) : View F A :=
  { v with next := v.next + 1, kids := Function.update v.kids v.next (some goal), owes := owes }

/-- The parent after a `wait` that has found the child. -/
def waited (i : ℕ) (goal : Set Pid) : View F A :=
  { v with kids := Function.update v.kids i none, ended := v.ended ∪ insert (i :: v.pid) goal }

theorem parent_kids_next (goal : Set Pid) (owes : Set (Pid × A × Fds F)) :
    (v.parent goal owes).kids v.next = some goal := Function.update_self ..

theorem parent_kids_of_ne (goal : Set Pid) (owes : Set (Pid × A × Fds F)) {i : ℕ}
    (h : i ≠ v.next) : (v.parent goal owes).kids i = v.kids i := Function.update_of_ne h ..

theorem waited_kids_self (i : ℕ) (goal : Set Pid) : (v.waited i goal).kids i = none :=
  Function.update_self ..

theorem waited_kids_of_ne {i j : ℕ} (goal : Set Pid) (h : j ≠ i) :
    (v.waited i goal).kids j = v.kids j := Function.update_of_ne h ..

/-- The goal is met when the process exits: all processes in it are over, or are below children
that it has not made. -/
def Settled : Prop := ∀ q ∈ v.goal, q ∈ v.ended ∨ ∃ i r, v.next ≤ i ∧ q = r ++ i :: v.pid

end View

/-- The program does what its view says, for `exec`s as in `E`, which may use the processes that
are over, and with descriptors as in `W` during each `wait`. -/
inductive Meets (nofile : ℕ) (E : Pid → A → Fds F → Set Pid → Prop) (W : Pid → Fds F → Prop) :
    View F A → Program F A → Prop
  | exit {v : View F A} {st : ℕ} (hs : v.Settled) (ho : v.owes = ∅) : Meets nofile E W v (.fail st)
  | close {v : View F A} {fd : ℕ} {k : Unit → Program F A}
    (h : Meets nofile E W (v.withFds (Function.update v.fds fd none)) (k ())) :
    Meets nofile E W v (.call (.close fd) k)
  | openFile {v : View F A} {f : F} {k : Option ℕ → Program F A}
    (h : ∀ fd, lowest nofile v.fds = some fd →
      Meets nofile E W (v.withFds (Function.update v.fds fd (some (.file f)))) (k (some fd)))
    (hf : Meets nofile E W v.excused (k none)) : Meets nofile E W v (.call (.openFile f) k)
  | dup {v : View F A} {fd fd' : ℕ} {ch : Channel F} {k : Option ℕ → Program F A}
    (hfd : v.fds fd = some ch) (hlow : lowest nofile v.fds = some fd')
    (h : Meets nofile E W (v.withFds (Function.update v.fds fd' (some ch))) (k (some fd'))) :
    Meets nofile E W v (.call (.dup fd) k)
  | pipe {v : View F A} {k : Option (ℕ × ℕ) → Program F A}
    (h : ∀ r w, lowest nofile v.fds = some r →
      lowest nofile (Function.update v.fds r (some (.readEnd v.pid v.next))) = some w →
      Meets nofile E W (v.piped (Function.update (Function.update v.fds r
        (some (.readEnd v.pid v.next))) w (some (.writeEnd v.pid v.next)))) (k (some (r, w))))
    (hf : Meets nofile E W v.excused (k none)) : Meets nofile E W v (.call .pipe k)
  | print {v : View F A} {fd : ℕ} {s : String} {k : Unit → Program F A}
    (h : Meets nofile E W v (k ())) : Meets nofile E W v (.call (.print fd s) k)
  | chdir {v : View F A} {path : String} {k : Bool → Program F A}
    (h : ∀ found, Meets nofile E W v (k found)) : Meets nofile E W v (.call (.chdir path) k)
  | fork {v : View F A} {k : Forked → Program F A} (goal : Set Pid)
    (owes owes' : Set (Pid × A × Fds F)) (ho : v.owes ⊆ owes ∪ owes')
    (hc : Meets nofile E W (v.child goal owes) (k .child))
    (hp : Meets nofile E W (v.parent goal owes') (k .parent))
    (hf : Meets nofile E W v.forkless (k .failed)) : Meets nofile E W v (.call .fork k)
  | wait {v : View F A} {k : Unit → Program F A} (hw : W v.pid v.fds)
    (h : ∀ i goal, v.kids i = some goal → Meets nofile E W (v.waited i goal) (k ()))
    (hf : (∀ i, v.kids i = none) → Meets nofile E W v (k ())) :
    Meets nofile E W v (.call .wait k)
  | exec {v : View F A} {a : A} {k : Unit → Program F A} (he : E v.pid a v.fds v.ended)
    (hs : v.Settled) (ho : v.owes ⊆ {(v.pid, a, v.fds)})
    (hf : Meets nofile E W v.excused (k ())) : Meets nofile E W v (.call (.exec a) k)

/-! ### What the views say of the world -/

/-- The process is over, unless a `fork` has failed. -/
def World.Ends (w : World F A) (q : Pid) : Prop := w.Over q ∨ ∃ r, (r, .failed .fork) ∈ w.log

section views

variable (nofile : ℕ) (E : Pid → A → Fds F → Set Pid → Prop) (W : Pid → Fds F → Prop)

/-- What the view of a process says of its life. -/
def View.OfLife (w : World F A) (view : Pid → View F A) (p : Pid) (pr : Proc F A) :
    Life F A → Prop
  | .code prog => Meets nofile E W (view p) prog ∧ (view p).fds = pr.fds ∧
      (view p).next = pr.next ∧
      ∀ i goal, (view p).kids i = some goal ↔
        w.hasChild p i = true ∧ (view (i :: p)).goal = goal
  | .image a => E p a pr.fds (view p).ended ∧ (view p).Settled ∧ (view p).next = pr.next
  | _ => ∀ q ∈ (view p).goal, w.Ends q

/-- The view fits the process. -/
structure View.Fits (w : World F A) (view : Pid → View F A) (p : Pid) (pr : Proc F A) : Prop where
  pid : (view p).pid = p
  ended : ∀ q ∈ (view p).ended, w.Ends q
  life : View.OfLife nofile E W w view p pr pr.life

/-- The `exec` was done, or has still to be done, or a call has failed. -/
def View.Accounted (w : World F A) (view : Pid → View F A) (x : Pid × A × Fds F) : Prop :=
  (x.1, .exec x.2.1 x.2.2) ∈ w.log ∨
  (∃ p pr, w.procs p = some pr ∧ pr.coded = true ∧ x ∈ (view p).owes) ∨
  ∃ r c, (r, .failed c) ∈ w.log

/-- Every `exec` so far was as `E` has it, and what was over then has done nothing since. -/
def World.ExecsMeet (w : World F A) : Prop :=
  ∀ L p a fds L', w.log = L ++ (p, .exec a fds) :: L' → ∃ ended, E p a fds ended ∧
    ∀ q ∈ ended, (w.Over q ∧ ∀ e ∈ L, e.1 ≠ q) ∨ ∃ r, (r, .failed .fork) ∈ L'

/-- The views fit the world. -/
structure View.Follow (owes : Set (Pid × A × Fds F)) (w : World F A) (view : Pid → View F A) :
    Prop where
  tree : w.Tree
  fits : ∀ p pr, w.procs p = some pr → View.Fits nofile E W w view p pr
  execs : w.ExecsMeet E
  accounted : ∀ x ∈ owes, View.Accounted w view x

end views

/-! ### One call -/

/-- How the view of a process goes on with a call that only it sees. -/
structure View.Goes (v v' : View F A) (fds : Fds F) (next : ℕ) (deed : Option (Deed F A)) :
    Prop where
  pid : v'.pid = v.pid
  fds : v'.fds = fds
  next : v'.next = next
  kids : v'.kids = v.kids
  goal : v'.goal = v.goal
  ended : v'.ended = v.ended ∨ deed = some (.failed .fork)
  owes : v'.owes = v.owes ∨ ∃ c, deed = some (.failed c)

section calls

variable {nofile : ℕ} {E : Pid → A → Fds F → Set Pid → Prop} {W : Pid → Fds F → Prop}
  {v : View F A} {pr : Proc F A}

theorem View.goes_excused (v : View F A) (c : Call F A) :
    v.Goes v.excused v.fds v.next (some (.failed c)) :=
  ⟨rfl, rfl, rfl, rfl, rfl, Or.inl rfl, Or.inr ⟨c, rfl⟩⟩

theorem View.goes_withFds (v : View F A) (fds : Fds F) : v.Goes (v.withFds fds) fds v.next none :=
  ⟨rfl, rfl, rfl, rfl, rfl, Or.inl rfl, Or.inl rfl⟩

/-- A call that only the process sees. -/
theorem Meets.reply {c : Call F A} {k : Ans c → Program F A} {act : Act} {r : Reply F A c}
    (h : Meets nofile E W v (.call c k)) (hfds : v.fds = pr.fds) (hnext : v.next = pr.next)
    (hr : pr.reply nofile v.pid c act = some r) :
    ∃ v', Meets nofile E W v' (k r.ans) ∧ v.Goes v' r.fds r.next r.deed := by
  obtain ⟨life, fds, next⟩ := pr
  obtain rfl : v.fds = fds := hfds
  obtain rfl : v.next = next := hnext
  cases h with
  | close h =>
    cases act with
    | go =>
      obtain rfl := Option.some.inj hr
      exact ⟨_, h, v.goes_withFds _⟩
    | fail => cases hr
    | reap i => cases hr
  | openFile h hf =>
    cases act with
    | go =>
      obtain ⟨fd, hlow, rfl⟩ := Option.map_eq_some_iff.mp hr
      exact ⟨_, h fd hlow, v.goes_withFds _⟩
    | fail =>
      obtain rfl := Option.some.inj hr
      exact ⟨_, hf, v.goes_excused _⟩
    | reap i => cases hr
  | dup hfd hlow h =>
    cases act with
    | go =>
      simp only [Proc.reply, hfd, hlow, Option.some.injEq] at hr
      obtain rfl := hr
      exact ⟨_, h, v.goes_withFds _⟩
    | fail => cases hr
    | reap i => cases hr
  | pipe h hf =>
    cases act with
    | go =>
      obtain ⟨rd, hrd, hr⟩ := Option.bind_eq_some_iff.mp hr
      obtain ⟨wr, hwr, rfl⟩ := Option.map_eq_some_iff.mp hr
      exact ⟨_, h rd wr hrd hwr, rfl, rfl, rfl, rfl, rfl, Or.inl rfl, Or.inl rfl⟩
    | fail =>
      obtain rfl := Option.some.inj hr
      exact ⟨_, hf, v.goes_excused _⟩
    | reap i => cases hr
  | print h =>
    cases act with
    | go =>
      obtain rfl := Option.some.inj hr
      exact ⟨_, h, rfl, rfl, rfl, rfl, rfl, Or.inl rfl, Or.inl rfl⟩
    | fail => cases hr
    | reap i => cases hr
  | chdir h =>
    cases act with
    | go =>
      obtain rfl := Option.some.inj hr
      exact ⟨_, h true, v.goes_withFds _⟩
    | fail =>
      obtain rfl := Option.some.inj hr
      exact ⟨_, h false, v.goes_withFds _⟩
    | reap i => cases hr
  | fork goal owes owes' ho hc hp hf =>
    cases act with
    | go => cases hr
    | fail =>
      obtain rfl := Option.some.inj hr
      exact ⟨_, hf, rfl, rfl, rfl, rfl, rfl, Or.inr rfl, Or.inr ⟨_, rfl⟩⟩
    | reap i => cases hr
  | wait hw h hf => cases act <;> cases hr
  | exec he hs ho hf =>
    cases act with
    | go => cases hr
    | fail =>
      obtain rfl := Option.some.inj hr
      exact ⟨_, hf, v.goes_excused _⟩
    | reap i => cases hr

end calls

/-! ### One step -/

section steps

open World

variable {nofile : ℕ} {E : Pid → A → Fds F → Set Pid → Prop} {W : Pid → Fds F → Prop}
  {owes : Set (Pid × A × Fds F)} {w w' : World F A} {view view' : Pid → View F A} {p q : Pid}
  {pr : Proc F A}

theorem World.Moves.log_mem (hm : w.Moves p pr w') {e : Pid × Deed F A} (he : e ∈ w.log) :
    e ∈ w'.log := by
  rcases hm.log_cases with heq | ⟨d, heq⟩
  · rwa [heq]
  · rw [heq]
    exact List.mem_cons_of_mem _ he

theorem World.Ends.moves (hm : w.Moves p pr w') (hp : w.procs p = some pr)
    (halive : pr.alive = true) (ht : w.Tree) (h : w.Ends q) : w'.Ends q := by
  rcases h with h | ⟨r, hr⟩
  · exact Or.inl (h.moves hm hp halive ht)
  · exact Or.inr ⟨r, hm.log_mem hr⟩

theorem Proc.unreaped_of_alive (h : pr.alive = true) : pr.unreaped = true := by
  rw [Proc.alive] at h
  split at h
  · rename_i hlife
    rw [Proc.unreaped, hlife]
  · rename_i hlife
    rw [Proc.unreaped, hlife]
  · cases h

/-- The views of the other processes, and their children, are as they were. -/
theorem View.Fits.moves {prq : Proc F A} (h : View.Fits nofile E W w view q prq)
    (hm : w.Moves p pr w') (hp : w.procs p = some pr) (halive : pr.alive = true) (ht : w.Tree)
    (hqp : q ≠ p) (hview : view' q = view q)
    (hgoal : ∀ i, (view' (i :: q)).goal = (view (i :: q)).goal)
    (hself : ∀ pr', w'.procs p = some pr' → pr'.unreaped = true) :
    View.Fits nofile E W w' view' q prq := by
  have hchild (i : ℕ) : w'.hasChild q i = w.hasChild q i := by
    rcases hm.cases_at hp ht (i :: q) with ⟨-, heq⟩ | ⟨rfl, pr', hpr', -⟩ | ⟨heq, -⟩ | ⟨⟨j, heq⟩, -⟩
    · rw [hasChild, hasChild, heq]
    · simp [hasChild, hp, hpr', hself pr' hpr', Proc.unreaped_of_alive halive]
    · exact absurd (List.cons.inj heq).2 hqp
    · exact absurd (List.cons.inj heq).2 hqp
  refine ⟨hview ▸ h.pid, fun r hr => (h.ended r (hview ▸ hr)).moves hm hp halive ht, ?_⟩
  have hlife := h.life
  cases hl : prq.life with
  | code prog =>
    rw [hl] at hlife
    obtain ⟨hmeets, hfds, hnext, hkids⟩ := hlife
    refine ⟨hview ▸ hmeets, hview ▸ hfds, hview ▸ hnext, fun i goal => ?_⟩
    rw [hview, hchild, hgoal]
    exact hkids i goal
  | image a =>
    rw [hl] at hlife
    rw [View.OfLife, hview]
    exact hlife
  | zombie =>
    rw [hl] at hlife
    exact fun r hr => (hlife r (hview ▸ hr)).moves hm hp halive ht
  | reaped =>
    rw [hl] at hlife
    exact fun r hr => (hlife r (hview ▸ hr)).moves hm hp halive ht

theorem World.ExecsMeet.moves (h : w.ExecsMeet E) (hm : w.Moves p pr w')
    (hp : w.procs p = some pr) (halive : pr.alive = true) (ht : w.Tree)
    (hexec : ∀ a fds, w'.log = (p, .exec a fds) :: w.log →
      ∃ ended, E p a fds ended ∧ ∀ q ∈ ended, w.Ends q) : w'.ExecsMeet E := by
  intro L r a fds L' hlog
  have hold (M : List (Pid × Deed F A)) (hM : w.log = M ++ (r, .exec a fds) :: L')
      (hL : ∀ e ∈ L, e.1 = p ∨ e ∈ M) : ∃ ended, E r a fds ended ∧
        ∀ q ∈ ended, (w'.Over q ∧ ∀ e ∈ L, e.1 ≠ q) ∨ ∃ r, (r, .failed .fork) ∈ L' := by
    obtain ⟨ended, hE, hover⟩ := h M r a fds L' hM
    refine ⟨ended, hE, fun q hq => ?_⟩
    rcases hover q hq with ⟨hq, hquiet⟩ | hfailed
    · refine Or.inl ⟨hq.moves hm hp halive ht, fun e he heq => ?_⟩
      rcases hL e he with hep | heM
      · -- the process that moves is alive
        obtain rfl : p = q := hep.symm.trans heq
        have hdead := hq.not_alive hp
        rw [halive] at hdead
        cases hdead
      · exact hquiet e heM heq
    · exact Or.inr hfailed
  rcases hm.log_cases with heq | ⟨d, heq⟩
  · exact hold L (heq ▸ hlog) fun e he => Or.inr he
  · cases L with
    | nil =>
      obtain ⟨he, rfl⟩ := List.cons.inj (heq.symm.trans hlog)
      obtain ⟨rfl, rfl⟩ := Prod.mk.inj he
      obtain ⟨ended, hE, hends⟩ := hexec a fds heq
      refine ⟨ended, hE, fun q hq => ?_⟩
      rcases hends q hq with hover | hfailed
      · exact Or.inl ⟨hover.moves hm hp halive ht, fun e he => by cases he⟩
      · exact Or.inr hfailed
    | cons e M =>
      obtain ⟨rfl, hM⟩ := List.cons.inj (heq.symm.trans hlog)
      refine hold M hM fun e he => ?_
      rcases List.mem_cons.mp he with rfl | he
      · exact Or.inl rfl
      · exact Or.inr he

/-- What has to be shown of a step: the process that moves and those that it changes fit their
views, and nothing is lost of what it owes. -/
theorem View.Follow.moves (hi : View.Follow nofile E W owes w view) (hm : w.Moves p pr w')
    (hp : w.procs p = some pr) (halive : pr.alive = true)
    (hview : ∀ q, q ≠ p → q ≠ pr.next :: p → view' q = view q)
    (hgoal : (view' p).goal = (view p).goal)
    (hself : ∀ pr', w'.procs p = some pr' →
      pr'.unreaped = true ∧ View.Fits nofile E W w' view' p pr')
    (hchild : ∀ i c, w'.procs (i :: p) = some c → w'.procs (i :: p) ≠ w.procs (i :: p) →
      View.Fits nofile E W w' view' (i :: p) c)
    (hexec : ∀ a fds, w'.log = (p, .exec a fds) :: w.log →
      ∃ ended, E p a fds ended ∧ ∀ q ∈ ended, w.Ends q)
    (howes : pr.coded = true → ∀ x ∈ (view p).owes, View.Accounted w' view' x) :
    View.Follow nofile E W owes w' view' := by
  have ht := hi.tree
  have hfresh := ht.fresh hp
  refine ⟨hm.tree hp ht, fun q prq hq => ?_, hi.execs.moves hm hp halive ht hexec,
    fun x hx => ?_⟩
  · by_cases hqp : q = p
    · subst hqp
      exact (hself prq hq).2
    · have hsame (heq : w'.procs q = w.procs q) : View.Fits nofile E W w' view' q prq := by
        have hq' := heq ▸ hq
        have hne : q ≠ pr.next :: p := by
          rintro rfl
          rw [hfresh] at hq'
          cases hq'
        refine (hi.fits q prq hq').moves hm hp halive ht hqp (hview q hqp hne) (fun i => ?_)
          fun pr' hpr' => (hself pr' hpr').1
        by_cases hip : i :: q = p
        · rw [hip, hgoal]
        · rw [hview _ hip fun heq => hqp (List.cons.inj heq).2]
      by_cases heq : w'.procs q = w.procs q
      · exact hsame heq
      · rcases hm.cases_at hp ht q with ⟨-, heq'⟩ | ⟨rfl, -⟩ | ⟨rfl, -⟩ | ⟨⟨i, rfl⟩, -⟩
        · exact absurd heq' heq
        · exact absurd rfl hqp
        · exact hchild _ _ hq heq
        · exact hchild _ _ hq heq
  · rcases hi.accounted x hx with hlog | ⟨q, prq, hq, hcoded, hxq⟩ | ⟨r, c, hfailed⟩
    · exact Or.inl (hm.log_mem hlog)
    · by_cases hqp : q = p
      · subst hqp
        obtain rfl := Option.some.inj (hp.symm.trans hq)
        exact howes hcoded x hxq
      · -- a process that runs its program and does not move
        have hne : q ≠ pr.next :: p := by
          rintro rfl
          rw [hfresh] at hq
          cases hq
        refine Or.inr (Or.inl ⟨q, prq, ?_, hcoded, by rwa [hview q hqp hne]⟩)
        rcases hm.cases_at hp ht q with ⟨-, heq⟩ | ⟨rfl, -⟩ | ⟨rfl, -⟩ | ⟨-, c, c', hc, -, hdead, -⟩
        · exact heq.trans hq
        · exact absurd rfl hqp
        · exact absurd rfl hne
        · obtain rfl := Option.some.inj (hc.symm.trans hq)
          rw [Proc.alive_of_coded hcoded] at hdead
          cases hdead
    · exact Or.inr (Or.inr ⟨r, c, hm.log_mem hfailed⟩)

/-- When a process exits its goal is met. -/
theorem View.Settled.ends {v : View F A} (h : v.Settled) (hpid : v.pid = p)
    (hnext : v.next = pr.next) (hover : ∀ q ∈ v.ended, w.Ends q) (hm : w.Moves p pr w')
    (hp : w.procs p = some pr) (halive : pr.alive = true) (ht : w.Tree) (hdead : w'.Dead p)
    (hnone : ∀ i, pr.next ≤ i → w'.procs (i :: p) = none) : ∀ q ∈ v.goal, w'.Ends q := by
  intro q hq
  rcases h q hq with hq | ⟨i, r, hi, rfl⟩
  · exact (hover q hq).moves hm hp halive ht
  · subst hpid
    exact Or.inl (hdead.over.below (hnone i (hnext ▸ hi)) (hm.tree hp ht) r).2

/-! The steps of a process that runs its program, one by one. -/

section code

variable {c : Call F A} {k : Ans c → Program F A} {fds : Fds F} {n : ℕ}

/-- What is known of a process that makes a call. -/
theorem View.Follow.calls (hi : View.Follow nofile E W owes w view)
    (hp : w.procs p = some ⟨.code (.call c k), fds, n⟩) :
    Meets nofile E W (view p) (.call c k) ∧ (view p).pid = p ∧ (view p).fds = fds ∧
      (view p).next = n ∧ (∀ q ∈ (view p).ended, w.Ends q) ∧
      ∀ i goal, (view p).kids i = some goal ↔
        w.hasChild p i = true ∧ (view (i :: p)).goal = goal := by
  obtain ⟨hpid, hover, hmeets, hfds, hnext, hkids⟩ := hi.fits p _ hp
  exact ⟨hmeets, hpid, hfds, hnext, hover, hkids⟩

/-- The process goes on alone, and may say something that is no `exec`. -/
theorem View.Follow.resume {v' : View F A} {prog : Program F A} {fds' : Fds F} {n' : ℕ}
    {deed : Option (Deed F A)} (hi : View.Follow nofile E W owes w view)
    (hp : w.procs p = some ⟨.code (.call c k), fds, n⟩) (hn : n ≤ n')
    (hdeed : ∀ a fds, deed ≠ some (.exec a fds)) (hmeets : Meets nofile E W v' prog)
    (hgoes : (view p).Goes v' fds' n' deed)
    (hw' : w' = deed.elim (w.put p ⟨.code prog, fds', n'⟩)
      ((w.put p ⟨.code prog, fds', n'⟩).say p)) :
    View.Follow nofile E W owes w' (Function.update view p v') := by
  obtain ⟨-, hpid, -, -, hover, hkids⟩ := hi.calls hp
  have hprocs : w'.procs = Function.update w.procs p (some ⟨.code prog, fds', n'⟩) := by
    rw [hw']
    cases deed <;> rfl
  have hlog : w'.log = deed.toList.map (p, ·) ++ w.log := by
    rw [hw']
    cases deed <;> rfl
  have hm : w.Moves p ⟨.code (.call c k), fds, n⟩ w' := by
    rw [hw']
    cases deed with
    | none => exact .own _ hn fun _ => rfl
    | some d => exact .does _ hn (fun _ => rfl) d fun a fds h => absurd (h ▸ rfl) (hdeed a fds)
  have hne (i : ℕ) : i :: p ≠ p := List.cons_ne_self i p
  refine hi.moves hm hp rfl (fun q hq _ => Function.update_of_ne hq ..) ?_ (fun pr' hpr' => ?_)
    (fun i c hc hchange => ?_) (fun a fds h => ?_) fun _ x hx => ?_
  · rw [Function.update_self, hgoes.goal]
  · rw [hprocs, Function.update_self] at hpr'
    obtain rfl := Option.some.inj hpr'
    refine ⟨rfl, ?_, fun q hq => ?_, ?_⟩
    · rw [Function.update_self, hgoes.pid, hpid]
    · rw [Function.update_self] at hq
      rcases hgoes.ended with heq | rfl
      · exact (hover q (heq ▸ hq)).moves hm hp rfl hi.tree
      · exact Or.inr ⟨p, by simp [hlog]⟩
    · rw [View.OfLife, Function.update_self]
      refine ⟨hmeets, hgoes.fds, hgoes.next, fun i goal => ?_⟩
      rw [hgoes.kids, Function.update_of_ne (hne i), hkids i goal, hasChild, hasChild, hprocs,
        Function.update_of_ne (hne i)]
  · rw [hprocs, Function.update_of_ne (hne i)] at hchange
    exact absurd rfl hchange
  · rw [hlog] at h
    cases deed with
    | none => simp at h
    | some d =>
      simp only [Option.toList_some, List.map_cons, List.map_nil, List.cons_append,
        List.nil_append, List.cons.injEq, Prod.mk.injEq, true_and, and_true] at h
      exact absurd (congrArg some h) (hdeed a fds)
  · rcases hgoes.owes with heq | ⟨c, rfl⟩
    · refine Or.inr (Or.inl ⟨p, ⟨.code prog, fds', n'⟩, ?_, rfl, ?_⟩)
      · rw [hprocs, Function.update_self]
      · rwa [Function.update_self, heq]
    · exact Or.inr (Or.inr ⟨p, c, by simp [hlog]⟩)

/-- The process makes a child. -/
theorem View.Follow.fork {k : Forked → Program F A} (hi : View.Follow nofile E W owes w view)
    (hp : w.procs p = some ⟨.code (.call .fork k), fds, n⟩)
    (hw' : w' = (w.put (n :: p) ⟨.code (k .child), fds, 0⟩).put p ⟨.code (k .parent), fds, n + 1⟩) :
    ∃ view', View.Follow nofile E W owes w' view' := by
  obtain ⟨hmeets, hpid, hfds, hnext, hover, hkids⟩ := hi.calls hp
  cases hmeets with
  | fork goal owes₁ owes₂ ho hc hpar hf =>
    have hm : w.Moves p ⟨.code (.call .fork k), fds, n⟩ w' := hw' ▸ .fork _ _ rfl rfl rfl
    have hne (i : ℕ) : i :: p ≠ p := List.cons_ne_self i p
    have hself : w'.procs p = some ⟨.code (k .parent), fds, n + 1⟩ := by rw [hw', put_self]
    have hnew : w'.procs (n :: p) = some ⟨.code (k .child), fds, 0⟩ := by
      rw [hw', put_of_ne _ _ (hne n), put_self]
    have hsame (q : Pid) (hq : q ≠ p) (hq' : q ≠ n :: p) : w'.procs q = w.procs q := by
      rw [hw', put_of_ne _ _ hq, put_of_ne _ _ hq']
    have hfresh : w.procs (n :: p) = none := hi.tree.fresh hp
    obtain ⟨view', hview, hviewc, hviewq⟩ : ∃ view' : Pid → View F A,
        view' p = (view p).parent goal owes₂ ∧ view' (n :: p) = (view p).child goal owes₁ ∧
        ∀ q, q ≠ p → q ≠ n :: p → view' q = view q :=
      ⟨Function.update (Function.update view (n :: p) ((view p).child goal owes₁)) p
          ((view p).parent goal owes₂), by simp, by simp [hne], fun q hq hq' => by simp [hq, hq']⟩
    have hends (q : Pid) (hq : q ∈ (view p).ended) : w'.Ends q :=
      (hover q hq).moves hm hp rfl hi.tree
    refine ⟨view', hi.moves hm hp rfl hviewq (by rw [hview]; rfl) (fun pr' hpr' => ?_)
      (fun i c hc hchange => ?_) (fun a fds h => ?_) fun _ x hx => ?_⟩
    · obtain rfl := Option.some.inj (hself.symm.trans hpr')
      refine ⟨rfl, by rw [hview]; exact hpid, fun q hq => hends q (by rwa [hview] at hq), ?_⟩
      rw [View.OfLife, hview]
      refine ⟨hpar, hfds, congrArg (· + 1) hnext, fun i g => ?_⟩
      by_cases hi' : i = n
      · subst hi'
        rw [← hnext, View.parent_kids_next, hnext, hviewc, hasChild, hnew]
        exact ⟨fun h => ⟨rfl, Option.some.inj h⟩, fun h => congrArg some h.2⟩
      · have hne' : i :: p ≠ n :: p := fun h => hi' (List.cons.inj h).1
        rw [View.parent_kids_of_ne _ _ _ (hnext ▸ hi'), hviewq _ (hne i) hne', hkids i g, hasChild,
          hasChild, hsame _ (hne i) hne']
    · have hi' : i = n := by
        by_contra hi'
        exact hchange (hsame _ (hne i) fun h => hi' (List.cons.inj h).1)
      subst hi'
      obtain rfl := Option.some.inj (hnew.symm.trans hc)
      refine ⟨?_, fun q hq => hends q (by rwa [hviewc] at hq), ?_⟩
      · rw [hviewc, View.child, hpid, hnext]
      · rw [View.OfLife, hviewc]
        refine ⟨‹_›, hfds, rfl, fun j g => ⟨fun h => (by cases h), fun h => ?_⟩⟩
        -- the child has no children yet
        have hnone : w'.procs (j :: i :: p) = none := by
          by_contra hne'
          obtain ⟨pr', hpr', hlt⟩ := (hm.tree hp hi.tree).child j _ hne'
          obtain rfl := Option.some.inj (hnew.symm.trans hpr')
          exact Nat.not_lt_zero _ hlt
        simp [hasChild, hnone] at h
    · rw [hw'] at h
      exact absurd h.symm (List.cons_ne_self _ _)
    · rcases ho hx with hx | hx
      · exact Or.inr (Or.inl ⟨n :: p, _, hnew, rfl, by rwa [hviewc]⟩)
      · exact Or.inr (Or.inl ⟨p, _, hself, rfl, by rwa [hview]⟩)

/-- The process waits and finds a child. -/
theorem View.Follow.reap {k : Unit → Program F A} {i m : ℕ} {cfds : Fds F}
    (hi : View.Follow nofile E W owes w view)
    (hp : w.procs p = some ⟨.code (.call .wait k), fds, n⟩)
    (hc : w.procs (i :: p) = some ⟨.zombie, cfds, m⟩)
    (hw' : w' = (w.put (i :: p) ⟨.reaped, cfds, m⟩).put p ⟨.code (k ()), fds, n⟩) :
    ∃ view', View.Follow nofile E W owes w' view' := by
  obtain ⟨hmeets, hpid, hfds, hnext, hover, hkids⟩ := hi.calls hp
  cases hmeets with
  | wait hw h hf =>
    have hm : w.Moves p ⟨.code (.call .wait k), fds, n⟩ w' :=
      hw' ▸ .reap i _ _ _ hc rfl rfl rfl rfl rfl
    have hne (j : ℕ) : j :: p ≠ p := List.cons_ne_self j p
    have hself : w'.procs p = some ⟨.code (k ()), fds, n⟩ := by rw [hw', put_self]
    have hreaped : w'.procs (i :: p) = some ⟨.reaped, cfds, m⟩ := by
      rw [hw', put_of_ne _ _ (hne i), put_self]
    have hsame (q : Pid) (hq : q ≠ p) (hq' : q ≠ i :: p) : w'.procs q = w.procs q := by
      rw [hw', put_of_ne _ _ hq, put_of_ne _ _ hq']
    have hkid : (view p).kids i = some (view (i :: p)).goal :=
      (hkids i _).mpr ⟨by rw [hasChild, hc]; rfl, rfl⟩
    have hfits := hi.fits _ _ hc
    obtain ⟨view', hview, hviewq⟩ : ∃ view' : Pid → View F A,
        view' p = (view p).waited i (view (i :: p)).goal ∧ ∀ q, q ≠ p → view' q = view q :=
      ⟨Function.update view p ((view p).waited i (view (i :: p)).goal), by simp,
        fun q hq => by simp [hq]⟩
    refine ⟨view', hi.moves hm hp rfl (fun q hq _ => hviewq q hq) (by rw [hview]; rfl)
      (fun pr' hpr' => ?_) (fun j c hc' hchange => ?_) (fun a fds h => ?_) fun _ x hx => ?_⟩
    · obtain rfl := Option.some.inj (hself.symm.trans hpr')
      refine ⟨rfl, by rw [hview]; exact hpid, fun q hq => ?_, ?_⟩
      · rw [hview] at hq
        rcases hq with hq | rfl | hq
        · exact (hover q hq).moves hm hp rfl hi.tree
        · rw [hpid]
          exact Or.inl (Dead.over ⟨_, hreaped, rfl⟩)
        · exact (hfits.life q hq).moves hm hp rfl hi.tree
      · rw [View.OfLife, hview]
        refine ⟨h i _ hkid, hfds, hnext, fun j g => ?_⟩
        by_cases hj : j = i
        · subst hj
          rw [View.waited_kids_self, hasChild, hreaped]
          exact ⟨fun h => (by cases h), fun h => (by cases h.1)⟩
        · have hne' : j :: p ≠ i :: p := fun h => hj (List.cons.inj h).1
          rw [View.waited_kids_of_ne _ _ hj, hviewq _ (hne j), hkids j g, hasChild, hasChild,
            hsame _ (hne j) hne']
    · have hj : j = i := by
        by_contra hj
        exact hchange (hsame _ (hne j) fun h => hj (List.cons.inj h).1)
      subst hj
      obtain rfl := Option.some.inj (hreaped.symm.trans hc')
      have hends (q : Pid) (hq : w.Ends q) : w'.Ends q := hq.moves hm hp rfl hi.tree
      refine ⟨?_, fun q hq => ?_, fun q hq => ?_⟩
      · rw [hviewq _ (hne j)]
        exact hfits.pid
      · rw [hviewq _ (hne j)] at hq
        exact hends q (hfits.ended q hq)
      · rw [hviewq _ (hne j)] at hq
        exact hends q (hfits.life q hq)
    · rw [hw'] at h
      exact absurd h.symm (List.cons_ne_self _ _)
    · exact Or.inr (Or.inl ⟨p, _, hself, rfl, by rwa [hview]⟩)

/-- The process goes on as another program. -/
theorem View.Follow.exec {a : A} {k : Unit → Program F A}
    (hi : View.Follow nofile E W owes w view)
    (hp : w.procs p = some ⟨.code (.call (.exec a) k), fds, n⟩)
    (hw' : w' = (w.put p ⟨.image a, fds, n⟩).say p (.exec a fds)) :
    View.Follow nofile E W owes w' view := by
  obtain ⟨hmeets, hpid, hfds, hnext, hover, -⟩ := hi.calls hp
  cases hmeets with
  | exec he hs ho hf =>
    rw [hpid, hfds] at he ho
    have hm : w.Moves p ⟨.code (.call (.exec a) k), fds, n⟩ w' := by
      rw [hw']
      exact .does _ (Nat.le_refl n) (fun _ => rfl) _ fun _ _ _ => ⟨rfl, rfl⟩
    have hself : w'.procs p = some ⟨.image a, fds, n⟩ := by
      rw [hw']
      exact put_self ..
    refine hi.moves hm hp rfl (fun _ _ _ => rfl) rfl (fun pr' hpr' => ?_)
      (fun i c hc hchange => ?_) (fun b fds' h => ?_) fun _ x hx => Or.inl ?_
    · obtain rfl := Option.some.inj (hself.symm.trans hpr')
      exact ⟨rfl, hpid, fun q hq => (hover q hq).moves hm hp rfl hi.tree, he, hs, hnext⟩
    · rw [hw'] at hchange
      exact absurd (put_of_ne _ _ (List.cons_ne_self i p)) hchange
    · rw [hw'] at h
      obtain ⟨hdeed, -⟩ := List.cons.inj h
      obtain ⟨rfl, rfl⟩ := Deed.exec.inj (Prod.mk.inj hdeed).2
      exact ⟨_, he, hover⟩
    · obtain rfl := Set.mem_singleton_iff.mp (ho hx)
      rw [hw']
      exact List.mem_cons_self

theorem View.Follow.call {act : Act} (hi : View.Follow nofile E W owes w view)
    (hp : w.procs p = some ⟨.code (.call c k), fds, n⟩)
    (hs : w.call nofile p ⟨.code (.call c k), fds, n⟩ c k act = some w') :
    ∃ view', View.Follow nofile E W owes w' view' := by
  have hcalls := hi.calls hp
  rw [World.call.eq_def] at hs
  split at hs
  · exact hi.fork hp (Option.some.inj hs).symm
  · split at hs
    · rename_i hc
      exact hi.reap hp hc (Option.some.inj hs).symm
    · cases hs
  · split at hs
    · -- no child is known, since there is none
      rename_i hnone
      obtain ⟨hmeets, -, hfds, hnext, -, hkids⟩ := hcalls
      cases hmeets with
      | wait hw h hf =>
        have hkids' (i : ℕ) : (view p).kids i = none := by
          by_contra hne
          obtain ⟨goal, hgoal⟩ := Option.ne_none_iff_exists'.mp hne
          have hchild := ((hkids i goal).mp hgoal).1
          have hex : w.procs (i :: p) ≠ none := fun h => by simp [hasChild, h] at hchild
          obtain ⟨pr, hpr, hlt⟩ := hi.tree.child i p hex
          obtain rfl := Option.some.inj (hp.symm.trans hpr)
          rw [hnone i hlt] at hchild
          cases hchild
        have hdeed (a : A) (fds : Fds F) : (none : Option (Deed F A)) ≠ some (.exec a fds) :=
          fun h => by cases h
        exact ⟨_, hi.resume hp le_rfl hdeed (hf hkids')
          ⟨rfl, hfds, hnext, rfl, rfl, Or.inl rfl, Or.inl rfl⟩ (Option.some.inj hs).symm⟩
    · cases hs
  · exact ⟨view, hi.exec hp (Option.some.inj hs).symm⟩
  · obtain ⟨r, hr, rfl⟩ := Option.map_eq_some_iff.mp hs
    obtain ⟨hmeets, hpid, hfds, hnext, -⟩ := hcalls
    obtain ⟨v', hmeets', hgoes⟩ := hmeets.reply hfds hnext (hpid.symm ▸ hr)
    exact ⟨_, hi.resume hp (reply_spec hr).1 (reply_spec hr).2 hmeets' hgoes rfl⟩

end code

/-- The process exits. -/
theorem View.Follow.leave (hi : View.Follow nofile E W owes w view) (hp : w.procs p = some pr)
    (halive : pr.alive = true) (hnext : (view p).next = pr.next) (hs : (view p).Settled)
    (ho : pr.coded = true → (view p).owes = ∅) :
    View.Follow nofile E W owes (w.leave p pr) view := by
  have hfits := hi.fits p pr hp
  have hm : w.Moves p pr (w.leave p pr) := by
    refine .does _ ?_ (fun h => by cases h) _ fun _ _ h => by cases h
    exact Nat.le_refl _
  have hself : (w.leave p pr).procs p = some ⟨.zombie, fun _ => none, pr.next⟩ := put_self ..
  have hother (i : ℕ) : (w.leave p pr).procs (i :: p) = w.procs (i :: p) :=
    put_of_ne _ _ (List.cons_ne_self i p)
  refine hi.moves hm hp halive (fun _ _ _ => rfl) rfl (fun pr' hpr' => ?_)
    (fun i c hc hchange => absurd (hother i) hchange) (fun b fds' h => ?_) fun hcoded x hx => ?_
  · obtain rfl := Option.some.inj (hself.symm.trans hpr')
    refine ⟨rfl, hfits.pid, fun q hq => (hfits.ended q hq).moves hm hp halive hi.tree, ?_⟩
    refine hs.ends hfits.pid hnext hfits.ended hm hp halive hi.tree ⟨_, hself, rfl⟩ fun i hi' => ?_
    rw [hother]
    by_contra hne
    obtain ⟨pr', hp', hlt⟩ := hi.tree.child i p hne
    obtain rfl := Option.some.inj (hp.symm.trans hp')
    omega
  · obtain ⟨hdeed, -⟩ := List.cons.inj h
    cases (Prod.mk.inj hdeed).2
  · rw [ho hcoded] at hx
    cases hx

theorem View.Follow.step {l : Pid × Act} (hi : View.Follow nofile E W owes w view)
    (hs : w.step nofile l = some w') : ∃ view', View.Follow nofile E W owes w' view' := by
  obtain ⟨p, act⟩ := l
  rw [World.step] at hs
  split at hs
  · rename_i pr hp
    obtain ⟨life, fds, n⟩ := pr
    have hfits := hi.fits p _ hp
    split at hs
    · rename_i c k hlife
      obtain rfl : life = .code (.call c k) := hlife
      exact hi.call hp hs
    · rename_i st hlife hact
      obtain rfl : life = .code (.fail st) := hlife
      obtain rfl := Option.some.inj hs
      obtain ⟨hmeets, -, hnext, -⟩ := hfits.life
      cases hmeets with
      | exit hsettled ho => exact ⟨view, hi.leave hp rfl hnext hsettled fun _ => ho⟩
    · rename_i a hlife hact
      obtain rfl : life = .image a := hlife
      obtain rfl := Option.some.inj hs
      obtain ⟨-, hsettled, hnext⟩ := hfits.life
      exact ⟨view, hi.leave hp rfl hnext hsettled fun h => by cases h⟩
    · cases hs
  · cases hs

/-! ### Runs -/

variable {prog : Program F A} {fds : Fds F} {goal : Set Pid} {ok : World F A → Pid × Act → Prop}

theorem Meets.init (h : Meets nofile E W (View.first fds goal owes) prog)
    (hw : (system nofile prog fds).init w) :
    View.Follow nofile E W owes w fun _ => View.first fds goal owes := by
  have ht := init_tree hw
  obtain rfl : w = _ := hw
  refine ⟨ht, fun p pr hp => ?_, fun L p a fds L' hlog => ?_,
    fun x hx => Or.inr (Or.inl ⟨[], ⟨.code prog, fds, 0⟩, rfl, rfl, hx⟩)⟩
  · obtain ⟨rfl, rfl⟩ : p = [] ∧ (⟨.code prog, fds, 0⟩ : Proc F A) = pr := by simpa using hp
    refine ⟨rfl, fun q hq => (by cases hq), h, rfl, rfl, fun i goal => ⟨fun h => (by cases h), ?_⟩⟩
    rintro ⟨h, -⟩
    simp [hasChild] at h
  · cases L <;> cases hlog

/-- A program that meets the view of a first process does so in every run. -/
theorem Meets.follow (h : Meets nofile E W (View.first fds goal owes) prog)
    (hw : (system nofile prog fds).Reachable ok w) :
    ∃ view, View.Follow nofile E W owes w view := by
  refine hw.induction (I := fun w => ∃ view, View.Follow nofile E W owes w view)
    (fun w hw => ⟨_, h.init hw⟩) fun w l w' hi _ hs => ?_
  obtain ⟨view, hi⟩ := hi
  exact hi.step hs

/-- Each `exec` was as `E` has it, after all those processes that had to be over. -/
theorem Meets.execs (h : Meets nofile E W (View.first fds goal owes) prog)
    (hw : (system nofile prog fds).Reachable ok w) : w.ExecsMeet E := by
  obtain ⟨view, hi⟩ := h.follow hw
  exact hi.execs

/-- The descriptors of a process that waits are as in `W`. -/
theorem Meets.waits {k : Unit → Program F A}
    (h : Meets nofile E W (View.first fds goal owes) prog)
    (hw : (system nofile prog fds).Reachable ok w) (hp : w.procs p = some pr)
    (hlife : pr.life = .code (.call .wait k)) : W p pr.fds := by
  obtain ⟨view, hi⟩ := h.follow hw
  have hfits := hi.fits p pr hp
  have hl := hfits.life
  rw [hlife] at hl
  obtain ⟨hmeets, hfds, -⟩ := hl
  cases hmeets with
  | wait hwait h hf => rwa [hfits.pid, hfds] at hwait

/-- The descriptors of a process that has gone on as another program are those of its `exec`. -/
theorem Meets.images {a : A} (h : Meets nofile E W (View.first fds goal owes) prog)
    (hw : (system nofile prog fds).Reachable ok w) (hp : w.procs p = some pr)
    (hlife : pr.life = .image a) : ∃ ended, E p a pr.fds ended := by
  obtain ⟨view, hi⟩ := h.follow hw
  have hl := (hi.fits p pr hp).life
  rw [hlife] at hl
  exact ⟨_, hl.1⟩

/-- When no process is alive, all that was to do has been done, unless a call has failed. -/
theorem Meets.owed (h : Meets nofile E W (View.first fds goal owes) prog)
    (hw : (system nofile prog fds).Reachable ok w)
    (hdead : ∀ p pr, w.procs p = some pr → pr.alive = false) {x : Pid × A × Fds F}
    (hx : x ∈ owes) : (x.1, .exec x.2.1 x.2.2) ∈ w.log ∨ ∃ r c, (r, .failed c) ∈ w.log := by
  obtain ⟨view, hi⟩ := h.follow hw
  rcases hi.accounted x hx with hlog | ⟨p, pr, hp, hcoded, -⟩ | hfailed
  · exact Or.inl hlog
  · have halive := Proc.alive_of_coded hcoded
    rw [hdead p pr hp] at halive
    cases halive
  · exact Or.inr hfailed

end steps

end OsLab.Processes
