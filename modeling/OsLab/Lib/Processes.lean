/-
Processes that run programs: they open and close descriptors, make pipes, fork, wait for
their children, and go on as another program.

A process is named by the way to it from the first one: `i :: p` is the child that `p` made when
it had made `i` pipes and children before.  The programs that it goes on as are not modelled:
such a process keeps its descriptors and exits at some time.

* `World.step` — one process makes one call; which one, and which calls fail, is in the label;
* `step_cases` — what a step changes;
* `World.Over` — the processes that do nothing any more, now and later;
* `exists_step` — while some process is alive, one of them can go on.
-/
import OsLab.Lib.Calls
import OsLab.Lib.Search
import OsLab.Lib.System
import Mathlib.Logic.Function.Basic

namespace OsLab.Processes

/-- The way to a process from the first one. -/
abbrev Pid := List ℕ

/-- What a descriptor is open on.  A pipe is named by the process that made it. -/
inductive Channel (F : Type)
  | file (f : F)
  | readEnd (p : Pid) (n : ℕ)
  | writeEnd (p : Pid) (n : ℕ)
  deriving DecidableEq

/-- The open descriptors. -/
abbrev Fds (F : Type) := ℕ → Option (Channel F)

/-- The calls, with files `F` and programs `A` to go on as. -/
inductive Call (F A : Type)
  | close (fd : ℕ)
  | openFile (f : F)
  | dup (fd : ℕ)
  | pipe
  | print (fd : ℕ) (s : String)
  | chdir (path : String)
  | fork
  | wait
  | exec (a : A)

/-- What `fork` returns: `-1`, `0`, or the child. -/
inductive Forked
  | failed | child | parent
  deriving DecidableEq, Repr

/-- What a call returns, with `none` for a call that fails. -/
abbrev Ans {F A : Type} : Call F A → Type
  | .close _ => Unit
  | .openFile _ => Option ℕ
  | .dup _ => Option ℕ
  | .pipe => Option (ℕ × ℕ)
  | .print _ _ => Unit
  | .chdir _ => Bool
  | .fork => Forked
  | .wait => Unit
  | .exec _ => Unit

/-- A program; it does not return, and fails with its exit status. -/
abbrev Program (F A : Type) := Prog (Call F A) Ans ℕ Empty

inductive Life (F A : Type)
  | code (prog : Program F A)
  /-- another program, as which the process has gone on -/
  | image (a : A)
  | zombie
  /-- waited for by the parent -/
  | reaped

structure Proc (F A : Type) where
  life : Life F A
  fds : Fds F
  /-- the pipes and children made so far -/
  next : ℕ

/-- What is seen of a process. -/
inductive Deed (F A : Type)
  | exec (a : A) (fds : Fds F)
  | print (ch : Option (Channel F)) (s : String)
  | failed (c : Call F A)
  | exit

/-- All processes, and what they have done, the newest first. -/
structure World (F A : Type) where
  procs : Pid → Option (Proc F A)
  log : List (Pid × Deed F A)

/-- What the label of a step says of the call: it succeeds, it fails, or it is a `wait` that
finds the child. -/
inductive Act
  | go | fail | reap (i : ℕ)
  deriving DecidableEq, Repr

variable {F A : Type}

/-- The program that the process has gone on as. -/
def Life.program : Life F A → Option A
  | .image a => some a
  | _ => none

theorem Life.program_eq_some {life : Life F A} {a : A} (h : life.program = some a) :
    life = .image a := by
  cases life with
  | image b => rw [Option.some.inj h]
  | code prog => cases h
  | zombie => cases h
  | reaped => cases h

/-- The process still runs its program. -/
def Proc.coded (pr : Proc F A) : Bool :=
  match pr.life with
  | .code _ => true
  | _ => false

def Proc.alive (pr : Proc F A) : Bool :=
  match pr.life with
  | .code _ => true
  | .image _ => true
  | _ => false

def Proc.unreaped (pr : Proc F A) : Bool :=
  match pr.life with
  | .reaped => false
  | _ => true

/-- The descriptor that a call opens. -/
def lowest (nofile : ℕ) (fds : Fds F) : Option ℕ := firstIndex (fun fd => (fds fd).isNone) nofile

/-- What a process has after a call that only it sees. -/
structure Reply (F A : Type) (c : Call F A) where
  ans : Ans c
  fds : Fds F
  next : ℕ
  deed : Option (Deed F A)

namespace Proc

variable (pr : Proc F A)

/-- The call changes the descriptors. -/
def opens {c : Call F A} (ans : Ans c) (fds : Fds F) : Reply F A c := ⟨ans, fds, pr.next, none⟩

/-- The call changes nothing. -/
def does {c : Call F A} (ans : Ans c) (d : Deed F A) : Reply F A c :=
  ⟨ans, pr.fds, pr.next, some d⟩

/-- The calls that only the process itself sees, and all calls that fail. -/
def reply (nofile : ℕ) (p : Pid) : (c : Call F A) → Act → Option (Reply F A c)
  | .close fd, .go => some (pr.opens () (Function.update pr.fds fd none))
  | .openFile f, .go =>
    (lowest nofile pr.fds).map fun fd =>
      pr.opens (some fd) (Function.update pr.fds fd (some (.file f)))
  | .openFile f, .fail => some (pr.does none (.failed (.openFile f)))
  | .dup fd, .go =>
    match pr.fds fd, lowest nofile pr.fds with
    | some ch, some fd' => some (pr.opens (some fd') (Function.update pr.fds fd' (some ch)))
    | _, _ => some (pr.does none (.failed (.dup fd)))
  | .pipe, .go =>
    (lowest nofile pr.fds).bind fun r =>
      let fds := Function.update pr.fds r (some (.readEnd p pr.next))
      (lowest nofile fds).map fun w =>
        ⟨some (r, w), Function.update fds w (some (.writeEnd p pr.next)), pr.next + 1, none⟩
  | .pipe, .fail => some (pr.does none (.failed .pipe))
  | .print fd s, .go => some (pr.does () (.print (pr.fds fd) s))
  | .chdir _, .go => some (pr.opens true pr.fds)
  | .chdir _, .fail => some (pr.opens false pr.fds)
  | .fork, .fail => some (pr.does .failed (.failed .fork))
  | .exec a, .fail => some (pr.does () (.failed (.exec a)))
  | _, _ => none

end Proc

namespace World

def put (w : World F A) (p : Pid) (pr : Proc F A) : World F A :=
  { w with procs := Function.update w.procs p (some pr) }

@[simp] theorem put_self (w : World F A) (p : Pid) (pr : Proc F A) :
    (w.put p pr).procs p = some pr := Function.update_self ..

theorem put_of_ne (w : World F A) {p q : Pid} (pr : Proc F A) (h : q ≠ p) :
    (w.put p pr).procs q = w.procs q := Function.update_of_ne h ..

def say (w : World F A) (p : Pid) (d : Deed F A) : World F A := { w with log := (p, d) :: w.log }

/-- The process goes on with the rest of its program. -/
def resume (w : World F A) (p : Pid) (pr : Proc F A) (prog : Program F A) : World F A :=
  w.put p { pr with life := .code prog }

/-- The process exits. -/
def leave (w : World F A) (p : Pid) (pr : Proc F A) : World F A :=
  (w.put p ⟨.zombie, fun _ => none, pr.next⟩).say p .exit

/-- A child that is not waited for yet. -/
def hasChild (w : World F A) (p : Pid) (i : ℕ) : Bool := (w.procs (i :: p)).any Proc.unreaped

/-- The process makes its call. -/
def call (nofile : ℕ) (w : World F A) (p : Pid) (pr : Proc F A) :
    (c : Call F A) → (Ans c → Program F A) → Act → Option (World F A)
  | .fork, k, .go =>
    some ((w.put (pr.next :: p) ⟨.code (k .child), pr.fds, 0⟩).resume p
      { pr with next := pr.next + 1 } (k .parent))
  | .wait, k, .reap i =>
    match w.procs (i :: p) with
    | some ⟨.zombie, fds, n⟩ => some ((w.put (i :: p) ⟨.reaped, fds, n⟩).resume p pr (k ()))
    | _ => none
  | .wait, k, .fail =>
    -- there is no child to wait for
    if ∀ i < pr.next, w.hasChild p i = false then some (w.resume p pr (k ())) else none
  | .exec a, _, .go => some ((w.put p { pr with life := .image a }).say p (.exec a pr.fds))
  | c, k, act =>
    (pr.reply nofile p c act).map fun r =>
      let w := w.resume p { pr with fds := r.fds, next := r.next } (k r.ans)
      r.deed.elim w (w.say p)

/-- One step of a process. -/
def step (nofile : ℕ) (w : World F A) (l : Pid × Act) : Option (World F A) :=
  match w.procs l.1 with
  | some pr =>
    match pr.life, l.2 with
    | .code (.call c k), act => w.call nofile l.1 pr c k act
    | .code (.fail _), .go => some (w.leave l.1 pr)
    | .image _, .go => some (w.leave l.1 pr)
    | _, _ => none
  | none => none

end World

/-- The processes that come from one that starts with a program and some descriptors. -/
def system (nofile : ℕ) (prog : Program F A) (fds : Fds F) : System (World F A) (Pid × Act) where
  init w := w = ⟨fun p => if p = [] then some ⟨.code prog, fds, 0⟩ else none, []⟩
  step := World.step nofile

namespace World

/-! ### What a step changes -/

/-- What process `p` may do to the world. -/
inductive Moves (w : World F A) (p : Pid) (pr : Proc F A) : World F A → Prop
  /-- something of its own -/
  | own (pr' : Proc F A) (hnext : pr.next ≤ pr'.next) (hcode : pr'.coded → pr.coded) :
    Moves w p pr (w.put p pr')
  | does (pr' : Proc F A) (hnext : pr.next ≤ pr'.next) (hcode : pr'.coded → pr.coded)
    (d : Deed F A) (hexec : ∀ a fds, d = .exec a fds → pr.coded ∧ pr'.coded = false) :
    Moves w p pr ((w.put p pr').say p d)
  | fork (c pr' : Proc F A) (hc : c.next = 0) (hnext : pr'.next = pr.next + 1)
    (hcode : pr.coded) : Moves w p pr ((w.put (pr.next :: p) c).put p pr')
  | reap (i : ℕ) (c c' pr' : Proc F A) (hc : w.procs (i :: p) = some c) (hdead : c.alive = false)
    (hdead' : c'.alive = false) (hnext' : c'.next = c.next) (hnext : pr'.next = pr.next)
    (hcode : pr.coded) : Moves w p pr ((w.put (i :: p) c').put p pr')

variable {nofile : ℕ} {w w' : World F A} {p q : Pid} {pr : Proc F A}

/-- A reply does not take pipes or children back, and is no `exec` that succeeds. -/
theorem reply_spec {c : Call F A} {act : Act} {r : Reply F A c}
    (hr : pr.reply nofile p c act = some r) :
    pr.next ≤ r.next ∧ ∀ a fds, r.deed ≠ some (.exec a fds) := by
  rw [Proc.reply.eq_def] at hr
  split at hr
  case h_2 =>
    obtain ⟨fd, -, rfl⟩ := Option.map_eq_some_iff.mp hr
    exact ⟨le_rfl, fun _ _ h => by cases h⟩
  case h_4 =>
    split at hr <;> obtain rfl := Option.some.inj hr <;> exact ⟨le_rfl, fun _ _ h => by cases h⟩
  case h_5 =>
    obtain ⟨fd, -, hr⟩ := Option.bind_eq_some_iff.mp hr
    obtain ⟨fd', -, rfl⟩ := Option.map_eq_some_iff.mp hr
    exact ⟨Nat.le_succ _, fun _ _ h => by cases h⟩
  case h_12 => cases hr
  all_goals
    obtain rfl := Option.some.inj hr
    exact ⟨le_rfl, fun _ _ h => by cases h⟩

theorem moves_call {c : Call F A} {k : Ans c → Program F A} {act : Act}
    (hlife : pr.life = .code (.call c k)) (hs : w.call nofile p pr c k act = some w') :
    w.Moves p pr w' := by
  have hcode : pr.coded = true := by rw [Proc.coded, hlife]
  rw [call.eq_def] at hs
  split at hs
  · obtain rfl := Option.some.inj hs
    exact .fork _ _ rfl rfl hcode
  · split at hs
    · rename_i hc
      obtain rfl := Option.some.inj hs
      exact .reap _ _ _ _ hc rfl rfl rfl rfl hcode
    · cases hs
  · split at hs
    · obtain rfl := Option.some.inj hs
      exact .own _ le_rfl fun _ => hcode
    · cases hs
  · obtain rfl := Option.some.inj hs
    refine .does _ ?_ (fun _ => hcode) _ fun _ _ _ => ⟨hcode, rfl⟩
    exact Nat.le_refl _
  · obtain ⟨r, hr, rfl⟩ := Option.map_eq_some_iff.mp hs
    cases hd : r.deed with
    | none => exact .own _ (reply_spec hr).1 fun _ => hcode
    | some d =>
      refine .does _ (reply_spec hr).1 (fun _ => hcode) d fun a fds hexec => ?_
      exact absurd (hexec ▸ hd) ((reply_spec hr).2 a fds)

/-- A step is one of a process that is alive. -/
theorem step_cases {l : Pid × Act} (hs : w.step nofile l = some w') :
    ∃ pr, w.procs l.1 = some pr ∧ pr.alive = true ∧ w.Moves l.1 pr w' := by
  rw [step] at hs
  split at hs
  · rename_i pr hpr
    refine ⟨pr, hpr, ?_⟩
    have hleave : w.Moves l.1 pr (w.leave l.1 pr) := by
      refine .does _ ?_ (fun h => by cases h) _ fun _ _ h => by cases h
      exact Nat.le_refl _
    split at hs
    · rename_i hlife
      exact ⟨by rw [Proc.alive, hlife], moves_call hlife hs⟩
    · rename_i hlife _
      obtain rfl := Option.some.inj hs
      exact ⟨by rw [Proc.alive, hlife], hleave⟩
    · rename_i hlife _
      obtain rfl := Option.some.inj hs
      exact ⟨by rw [Proc.alive, hlife], hleave⟩
    · cases hs
  · cases hs

/-! ### The tree of the processes -/

/-- What is always so of the processes that there are. -/
structure Tree (w : World F A) : Prop where
  first : w.procs [] ≠ none
  child : ∀ i p, w.procs (i :: p) ≠ none → ∃ pr, w.procs p = some pr ∧ i < pr.next

theorem Tree.fresh (h : w.Tree) (hp : w.procs p = some pr) : w.procs (pr.next :: p) = none := by
  by_contra hne
  obtain ⟨pr', hp', hlt⟩ := h.child _ p hne
  obtain rfl := Option.some.inj (hp.symm.trans hp')
  omega

/-- What a step does to process `q`: nothing, or it is its own, or it makes the process, or it
is the parent that has waited for it. -/
theorem Moves.cases_at (h : w.Moves p pr w') (hp : w.procs p = some pr) (ht : w.Tree) (q : Pid) :
    q ≠ p ∧ w'.procs q = w.procs q ∨
    q = p ∧ (∃ pr', w'.procs q = some pr' ∧ pr.next ≤ pr'.next ∧ (pr'.coded → pr.coded)) ∨
    q = pr.next :: p ∧ w.procs q = none ∧ (∃ c, w'.procs q = some c ∧ c.next = 0) ∧
      (∃ pr', w'.procs p = some pr' ∧ pr.next < pr'.next) ∨
    (∃ i, q = i :: p) ∧ ∃ c c', w.procs q = some c ∧ w'.procs q = some c' ∧ c.alive = false ∧
      c'.alive = false ∧ c'.next = c.next := by
  by_cases hq : q = p
  · -- the process itself
    subst hq
    refine Or.inr (Or.inl ⟨rfl, ?_⟩)
    cases h with
    | own pr' hnext hcode => exact ⟨pr', Function.update_self .., hnext, hcode⟩
    | does pr' hnext hcode d => exact ⟨pr', Function.update_self .., hnext, hcode⟩
    | fork c pr' hc hnext hcode =>
      exact ⟨pr', Function.update_self .., by omega, fun _ => hcode⟩
    | reap i c c' pr' hc hdead hdead' hnext' hnext hcode =>
      exact ⟨pr', Function.update_self .., by omega, fun _ => hcode⟩
  · have hput {w : World F A} {pr : Proc F A} : (w.put p pr).procs q = w.procs q :=
      w.put_of_ne pr hq
    cases h with
    | own pr' hnext _ => exact Or.inl ⟨hq, hput⟩
    | does pr' hnext _ d => exact Or.inl ⟨hq, hput⟩
    | fork c pr' hc hnext _ =>
      by_cases hchild : q = pr.next :: p
      · subst hchild
        refine Or.inr (Or.inr (Or.inl ⟨rfl, ht.fresh hp, ⟨c, ?_, hc⟩, pr', ?_, by omega⟩))
        · rw [hput]
          exact Function.update_self ..
        · exact Function.update_self ..
      · refine Or.inl ⟨hq, ?_⟩
        rw [hput]
        exact Function.update_of_ne hchild ..
    | reap i c c' pr' hc hdead hdead' hnext' hnext _ =>
      by_cases hchild : q = i :: p
      · subst hchild
        refine Or.inr (Or.inr (Or.inr ⟨⟨i, rfl⟩, c, c', hc, ?_, hdead, hdead', hnext'⟩))
        rw [hput]
        exact Function.update_self ..
      · refine Or.inl ⟨hq, ?_⟩
        rw [hput]
        exact Function.update_of_ne hchild ..

/-- What is said in a step is said by the process that moves. -/
theorem Moves.log_cases (h : w.Moves p pr w') :
    w'.log = w.log ∨ ∃ d, w'.log = (p, d) :: w.log := by
  cases h with
  | does pr' hnext hcode d => exact Or.inr ⟨d, rfl⟩
  | _ => exact Or.inl rfl

/-- A process that exists goes on existing. -/
theorem Moves.kept (h : w.Moves p pr w') (hp : w.procs p = some pr) (ht : w.Tree)
    {pr₁ : Proc F A} (hq : w.procs q = some pr₁) :
    ∃ pr₂, w'.procs q = some pr₂ ∧ pr₁.next ≤ pr₂.next := by
  rcases h.cases_at hp ht q with ⟨-, heq⟩ | ⟨rfl, pr', hpr', hle, -⟩ | ⟨-, hnone, -⟩ |
    ⟨-, c, c', hc, hc', -, -, hnext⟩
  · exact ⟨pr₁, heq.trans hq, le_rfl⟩
  · obtain rfl := Option.some.inj (hp.symm.trans hq)
    exact ⟨pr', hpr', hle⟩
  · rw [hnone] at hq
    cases hq
  · obtain rfl := Option.some.inj (hc.symm.trans hq)
    exact ⟨c', hc', hnext.ge⟩

theorem Moves.tree (h : w.Moves p pr w') (hp : w.procs p = some pr) (ht : w.Tree) : w'.Tree where
  first := by
    obtain ⟨pr₁, hpr₁⟩ := Option.ne_none_iff_exists'.mp ht.first
    obtain ⟨pr₂, hpr₂, -⟩ := h.kept hp ht hpr₁
    simp [hpr₂]
  child i q hne := by
    have hold : w.procs (i :: q) ≠ none → ∃ pr', w'.procs q = some pr' ∧ i < pr'.next := by
      intro hne
      obtain ⟨pr₁, hq, hlt⟩ := ht.child i q hne
      obtain ⟨pr₂, hq', hle⟩ := h.kept hp ht hq
      exact ⟨pr₂, hq', by omega⟩
    rcases h.cases_at hp ht (i :: q) with ⟨-, heq⟩ | ⟨heq, -⟩ | ⟨heq, -, -, hpr'⟩ |
      ⟨-, c, c', hc, -⟩
    · exact hold (heq ▸ hne)
    · exact hold (by simp [heq, hp])
    · obtain ⟨rfl, rfl⟩ := List.cons.inj heq
      exact hpr'
    · exact hold (by simp [hc])

/-! ### Processes that are over -/

/-- The process has exited. -/
def Dead (w : World F A) (p : Pid) : Prop := ∃ pr, w.procs p = some pr ∧ pr.alive = false

/-- The process has exited or will never be there: it does nothing any more. -/
def Over (w : World F A) : Pid → Prop
  | [] => w.Dead []
  | i :: p => w.Dead (i :: p) ∨ w.procs (i :: p) = none ∧ w.Over p

theorem Dead.over (h : w.Dead p) : w.Over p := by
  cases p with
  | nil => exact h
  | cons i p => exact Or.inl h

theorem Over.not_alive (h : w.Over p) (hp : w.procs p = some pr) : pr.alive = false := by
  have hdead : w.Dead p → pr.alive = false := by
    rintro ⟨pr', hp', halive⟩
    obtain rfl := Option.some.inj (hp.symm.trans hp')
    exact halive
  cases p with
  | nil => exact hdead h
  | cons i p =>
    rcases h with h | ⟨hnone, -⟩
    · exact hdead h
    · rw [hnone] at hp
      cases hp

theorem Dead.moves (h : w.Moves p pr w') (hp : w.procs p = some pr) (halive : pr.alive = true)
    (ht : w.Tree) (hd : w.Dead q) : w'.Dead q := by
  obtain ⟨c, hc, hdead⟩ := hd
  rcases h.cases_at hp ht q with ⟨-, heq⟩ | ⟨rfl, -⟩ | ⟨-, hnone, -⟩ |
    ⟨-, -, c', -, hc', -, hdead', -⟩
  · exact ⟨c, heq.trans hc, hdead⟩
  · obtain rfl := Option.some.inj (hp.symm.trans hc)
    rw [halive] at hdead
    cases hdead
  · rw [hnone] at hc
    cases hc
  · exact ⟨c', hc', hdead'⟩

/-- What is over stays so. -/
theorem Over.moves (h : w.Moves p pr w') (hp : w.procs p = some pr) (halive : pr.alive = true)
    (ht : w.Tree) : ∀ {q}, w.Over q → w'.Over q
  | [], hq => Dead.moves h hp halive ht hq
  | i :: r, Or.inl hd => Or.inl (hd.moves h hp halive ht)
  | i :: r, Or.inr ⟨hnone, hr⟩ => by
    refine Or.inr ⟨?_, Over.moves h hp halive ht hr⟩
    rcases h.cases_at hp ht (i :: r) with ⟨-, heq⟩ | ⟨heq, -⟩ | ⟨heq, -⟩ | ⟨-, c, c', hc, -⟩
    · exact heq.trans hnone
    · rw [heq, hp] at hnone
      cases hnone
    · -- the process would be made by one that is over
      obtain ⟨rfl, rfl⟩ := List.cons.inj heq
      rw [hr.not_alive hp] at halive
      cases halive
    · rw [hnone] at hc
      cases hc

/-- Below a process that is over all are over that were not made. -/
theorem Over.below (h : w.Over p) {i : ℕ} (hnone : w.procs (i :: p) = none) (ht : w.Tree) :
    ∀ r, w.procs (r ++ i :: p) = none ∧ w.Over (r ++ i :: p)
  | [] => ⟨hnone, Or.inr ⟨hnone, h⟩⟩
  | j :: r => by
    obtain ⟨hr, hover⟩ := h.below hnone ht r
    have hj : w.procs (j :: (r ++ i :: p)) = none := by
      by_contra hne
      obtain ⟨pr, hpr, -⟩ := ht.child j _ hne
      rw [hr] at hpr
      cases hpr
    exact ⟨hj, Or.inr ⟨hj, hover⟩⟩

end World

/-! ### Runs -/

section runs

open World

variable {nofile : ℕ} {prog : Program F A} {fds : Fds F} {w w' : World F A} {p : Pid}
  {pr : Proc F A}

theorem init_tree (h : (system nofile prog fds).init w) : w.Tree := by
  obtain rfl : w = _ := h
  exact ⟨by simp, fun i p hne => by simp at hne⟩

theorem tree_of_reachable {ok : World F A → Pid × Act → Prop}
    (h : (system nofile prog fds).Reachable ok w) : w.Tree := by
  refine h.induction (fun _ => init_tree) fun w l w' ht _ hs => ?_
  obtain ⟨pr, hp, -, hmoves⟩ := step_cases hs
  exact hmoves.tree hp ht

/-- Processes are not deeper than this. -/
def World.Within (w : World F A) (n : ℕ) : Prop := ∀ p, w.procs p ≠ none → p.length ≤ n

theorem exists_within {ok : World F A → Pid × Act → Prop}
    (h : (system nofile prog fds).Reachable ok w) : ∃ n, w.Within n := by
  refine h.strong_induction (I := fun w => ∃ n, w.Within n) (fun w hw => ?_)
    fun w l w' hw ⟨n, hn⟩ _ hs => ?_
  · obtain rfl : w = _ := hw
    exact ⟨0, fun p hne => by simpa using hne⟩
  · -- the step makes at most one process
    obtain ⟨pr, hp, -, hmoves⟩ := step_cases hs
    refine ⟨max n (l.1.length + 1), fun q hne => ?_⟩
    rcases hmoves.cases_at hp (tree_of_reachable hw) q with ⟨-, heq⟩ | ⟨rfl, -⟩ | ⟨rfl, -⟩ |
      ⟨-, c, c', hc, -⟩
    · have hle := hn q (heq ▸ hne)
      omega
    · omega
    · simp
    · have hle := hn q (by simp [hc])
      omega

theorem World.step_call {c : Call F A} {k : Ans c → Program F A} (hp : w.procs p = some pr)
    (hlife : pr.life = .code (.call c k)) (act : Act) :
    w.step nofile (p, act) = w.call nofile p pr c k act := by
  simp only [step, hp, hlife]

/-- A call other than `wait` can fail, or is sure to succeed. -/
theorem World.exists_call {c : Call F A} (hc : c ≠ .wait) (k : Ans c → Program F A) :
    ∃ act w', w.call nofile p pr c k act = some w' := by
  cases c with
  | close fd => exact ⟨.go, _, rfl⟩
  | openFile f => exact ⟨.fail, _, rfl⟩
  | dup fd =>
    refine ⟨.go, ?_⟩
    rw [call, Proc.reply]
    · split <;> exact ⟨_, rfl⟩
    all_goals simp
  | pipe => exact ⟨.fail, _, rfl⟩
  | print fd s => exact ⟨.go, _, rfl⟩
  | chdir path => exact ⟨.go, _, rfl⟩
  | fork => exact ⟨.go, _, rfl⟩
  | wait => exact absurd rfl hc
  | exec a => exact ⟨.go, _, rfl⟩

/-- **No process waits forever.**  While a process is alive, it or a process below it can go
on. -/
theorem World.exists_step {n m : ℕ} (hn : w.Within n) (hp : w.procs p = some pr)
    (halive : pr.alive = true) (hm : n < p.length + m) : ∃ l w', w.step nofile l = some w' := by
  induction m generalizing p pr with
  | zero =>
    have hle := hn p (by simp [hp])
    omega
  | succ m ih =>
    cases hlife : pr.life with
    | zombie => simp [Proc.alive, hlife] at halive
    | reaped => simp [Proc.alive, hlife] at halive
    | image a => exact ⟨(p, .go), w.leave p pr, by simp only [step, hp, hlife]⟩
    | code prog =>
      cases prog with
      | done e => exact e.elim
      | fail st => exact ⟨(p, .go), w.leave p pr, by simp only [step, hp, hlife]⟩
      | call c k =>
        by_cases hwait : c = .wait
        · subst hwait
          by_cases hnone : ∀ i < pr.next, w.hasChild p i = false
          · refine ⟨(p, .fail), w.resume p pr (k ()), ?_⟩
            rw [step_call hp hlife, call, if_pos hnone]
          · -- there is a child: a zombie, or alive
            push Not at hnone
            obtain ⟨i, -, hchild⟩ := hnone
            cases hc : w.procs (i :: p) with
            | none => simp [hasChild, hc] at hchild
            | some c =>
              have hunreaped : c.unreaped = true := by simpa [hasChild, hc] using hchild
              obtain ⟨life, fds, next⟩ := c
              cases life with
              | reaped => cases hunreaped
              | zombie =>
                refine ⟨(p, .reap i), (w.put (i :: p) ⟨.reaped, fds, next⟩).resume p pr (k ()), ?_⟩
                rw [step_call hp hlife]
                simp only [call, hc]
              | image a => exact ih hc rfl (by rw [List.length_cons]; omega)
              | code prog => exact ih hc rfl (by rw [List.length_cons]; omega)
        · obtain ⟨act, w', hs⟩ := exists_call (w := w) (p := p) hwait k
          exact ⟨(p, act), w', (step_call hp hlife act).trans hs⟩

/-! ### What the processes have gone on as -/

/-- The process of a deed that is an `exec`. -/
def execOf : Pid × Deed F A → Option Pid
  | (p, .exec _ _) => some p
  | _ => none

/-- No process has gone on as a program twice, and those that have do not run theirs. -/
structure World.ExecsOnce (w : World F A) : Prop where
  nodup : (w.log.filterMap execOf).Nodup
  gone : ∀ p ∈ w.log.filterMap execOf, ∃ pr, w.procs p = some pr ∧ pr.coded = false

theorem execOf_eq_some {e : Pid × Deed F A} {q : Pid} (h : execOf e = some q) :
    ∃ a fds, e = (q, .exec a fds) := by
  obtain ⟨p, d⟩ := e
  cases d with
  | exec a fds =>
    obtain rfl := Option.some.inj h
    exact ⟨a, fds, rfl⟩
  | print ch s => cases h
  | failed c => cases h
  | exit => cases h

theorem Proc.alive_of_coded (h : pr.coded = true) : pr.alive = true := by
  rw [Proc.coded] at h
  split at h
  · rename_i hlife
    rw [Proc.alive, hlife]
  · cases h

/-- A process that has gone on as another program does not come back to its own. -/
theorem World.Moves.gone {q : Pid} {pr₁ : Proc F A} (h : w.Moves p pr w') (hp : w.procs p = some pr)
    (ht : w.Tree) (hq : w.procs q = some pr₁) (hgone : pr₁.coded = false) :
    ∃ pr₂, w'.procs q = some pr₂ ∧ pr₂.coded = false := by
  rcases h.cases_at hp ht q with ⟨-, heq⟩ | ⟨rfl, pr', hpr', -, hcode⟩ | ⟨-, hnone, -⟩ |
    ⟨-, c, c', hc, hc', -, hdead', -⟩
  · exact ⟨pr₁, heq.trans hq, hgone⟩
  · obtain rfl := Option.some.inj (hp.symm.trans hq)
    refine ⟨pr', hpr', ?_⟩
    by_contra hne
    rw [hcode (by simpa using hne)] at hgone
    cases hgone
  · rw [hnone] at hq
    cases hq
  · refine ⟨c', hc', ?_⟩
    by_contra hne
    rw [Proc.alive_of_coded (by simpa using hne)] at hdead'
    cases hdead'

theorem execsOnce_of_reachable {ok : World F A → Pid × Act → Prop}
    (h : (system nofile prog fds).Reachable ok w) : w.ExecsOnce := by
  refine h.strong_induction (fun w hw => ?_) fun w l w' hw ho _ hs => ?_
  · obtain rfl : w = _ := hw
    exact ⟨List.nodup_nil, fun p hp => by cases hp⟩
  · obtain ⟨pr, hp, -, hmoves⟩ := step_cases hs
    have ht := tree_of_reachable hw
    have hgone : ∀ q ∈ w.log.filterMap execOf, ∃ pr, w'.procs q = some pr ∧ pr.coded = false := by
      intro q hq
      obtain ⟨pr₁, hq, hgone⟩ := ho.gone q hq
      exact hmoves.gone hp ht hq hgone
    cases hmoves with
    | own pr' hnext hcode => exact ⟨ho.nodup, hgone⟩
    | fork c pr' hc hnext hcode => exact ⟨ho.nodup, hgone⟩
    | reap i c c' pr' hc hdead hdead' hnext' hnext hcode => exact ⟨ho.nodup, hgone⟩
    | does pr' hnext hcode d hexec =>
      by_cases he : execOf (l.1, d) = none
      · have hlog : ((w.put l.1 pr').say l.1 d).log.filterMap execOf = w.log.filterMap execOf :=
          List.filterMap_cons_none he
        exact ⟨hlog ▸ ho.nodup, hlog ▸ hgone⟩
      · -- the process ran its program until now
        obtain ⟨q, hq⟩ := Option.ne_none_iff_exists'.mp he
        obtain ⟨a, fds, heq⟩ := execOf_eq_some hq
        obtain ⟨rfl, rfl⟩ := Prod.mk.inj heq
        obtain ⟨hcoded, hcoded'⟩ := hexec a fds rfl
        have hlog : ((w.put l.1 pr').say l.1 (.exec a fds)).log.filterMap execOf =
          l.1 :: w.log.filterMap execOf := List.filterMap_cons_some hq
        refine ⟨?_, ?_⟩
        · rw [hlog]
          refine List.nodup_cons.mpr ⟨fun hmem => ?_, ho.nodup⟩
          obtain ⟨pr₁, hp₁, hgone₁⟩ := ho.gone _ hmem
          obtain rfl := Option.some.inj (hp.symm.trans hp₁)
          rw [hcoded] at hgone₁
          cases hgone₁
        · rw [hlog]
          intro r hr
          rcases List.mem_cons.mp hr with rfl | hr
          · exact ⟨pr', Function.update_self .., hcoded'⟩
          · exact hgone r hr

end runs

end OsLab.Processes
