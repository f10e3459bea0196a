/-
Programs of threads that take spin locks and may go to sleep.

* `Cmd` — the commands; data, tests and actions are parameters;
* `SpinMachine.system` — the interleavings of any number of threads;
* `SpinMachine.Awake` — no thread is at a point of sleep with a critical lock;
* `Cmd.Runs` — rules for the locks before and after a program none of whose points of sleep
  is under a critical lock;
* `SpinMachine.awake_of_reachable` — programs that meet the rules keep threads awake.
-/
import OsLab.Lib.System
import Mathlib.Order.BooleanAlgebra.Set

namespace OsLab

variable {σ L C A K E : Type}

/-- Programs over locks `L`, tests `C` and actions `A`. -/
inductive Cmd (L C A : Type)
  | skip
  | lock (l : L)
  | unlock (l : L)
  /-- a point where the thread may be put to sleep -/
  | sleep
  | act (a : A)
  | panic
  | seq (p q : Cmd L C A)
  | ite (c : C) (p q : Cmd L C A)
  | loop (c : C) (p : Cmd L C A)

namespace Cmd

/-- One after the other. -/
def seqs : List (Cmd L C A) → Cmd L C A
  | [] => .skip
  | p :: ps => .seq p (seqs ps)

/-- The test that comes next. -/
def asks : List (Cmd L C A) → Option C
  | .ite c _ _ :: _ => some c
  | .loop c _ :: _ => some c
  | _ => none

/-- The next command is a point of sleep. -/
def sleeps : List (Cmd L C A) → Bool
  | .sleep :: _ => true
  | _ => false

/-- From the locks in `H` to those in `H'`.  A branch only counts when the test may have that
outcome under the locks that are held. -/
inductive Runs (critical : Set L) (allowed : Set L → C → Bool → Prop) :
    Set L → Cmd L C A → Set L → Prop
  | skip (H) : Runs critical allowed H .skip H
  | lock {H l} : Runs critical allowed H (.lock l) (insert l H)
  | unlock {H l} : l ∈ H → Runs critical allowed H (.unlock l) (H \ {l})
  | sleep {H} : (∀ l ∈ H, l ∉ critical) → Runs critical allowed H .sleep H
  | act {H} (a) : Runs critical allowed H (.act a) H
  | panic {H H'} : Runs critical allowed H .panic H'
  | seq {H H' H'' p q} : Runs critical allowed H p H' → Runs critical allowed H' q H'' →
      Runs critical allowed H (.seq p q) H''
  | ite {H H' c p q} : (allowed H c true → Runs critical allowed H p H') →
      (allowed H c false → Runs critical allowed H q H') → Runs critical allowed H (.ite c p q) H'
  | loop {H c p} : (allowed H c true → Runs critical allowed H p H) →
      Runs critical allowed H (.loop c p) H

namespace Runs

variable {critical : Set L} {allowed : Set L → C → Bool → Prop} {H H' H'' : Set L} {l : L}

theorem nil : Runs (A := A) critical allowed H (seqs []) H := .skip H

theorem cons {p : Cmd L C A} {ps : List (Cmd L C A)} (hp : Runs critical allowed H p H')
    (hps : Runs critical allowed H' (seqs ps) H'') : Runs critical allowed H (seqs (p :: ps)) H'' :=
  .seq hp hps

/-- A lock is released again. -/
theorem unlock_insert (h : l ∉ H) :
    Runs (A := A) critical allowed (insert l H) (.unlock l) H := by
  have hunlock : Runs (A := A) critical allowed (insert l H) (.unlock l) (insert l H \ {l}) :=
    .unlock (Set.mem_insert l H)
  rwa [Set.insert_sdiff_self_of_notMem h] at hunlock

end Runs

/-- What is left of a call: at its end no lock is held. -/
def RunsAll (critical : Set L) (allowed : Set L → C → Bool → Prop) :
    Set L → List (Cmd L C A) → Prop
  | H, [] => H = ∅
  | H, p :: ps => ∃ H', Runs critical allowed H p H' ∧ RunsAll critical allowed H' ps

end Cmd

/-- What the threads run: the program of a call, the data, and what other code may do to it.
Tests of data that is left out have no value; their outcome is left to the run. -/
structure SpinMachine (σ L C A K E : Type) where
  body : K → Cmd L C A
  test : σ → ℕ → C → Option Bool
  act : σ → ℕ → A → σ
  other : σ → E → σ

structure SpinState (σ L C A : Type) where
  data : σ
  owner : L → Option ℕ
  /-- what each thread has still to do -/
  code : ℕ → List (Cmd L C A)

inductive SpinStep (K E : Type)
  | call (t : ℕ) (k : K)
  | turn (t : ℕ) (b : Bool)
  | other (e : E)

namespace SpinState

/-- The locks of a thread. -/
def held (s : SpinState σ L C A) (t : ℕ) : Set L := { l | s.owner l = some t }

instance (s : SpinState σ L C A) (t : ℕ) (l : L) : Decidable (l ∈ s.held t) :=
  inferInstanceAs (Decidable (s.owner l = some t))

def goto (s : SpinState σ L C A) (t : ℕ) (code : List (Cmd L C A)) : SpinState σ L C A :=
  { s with code := Function.update s.code t code }

/-- No thread is at a point of sleep with a critical lock. -/
def Awake (critical : Set L) (s : SpinState σ L C A) : Prop :=
  ∀ t, Cmd.sleeps (s.code t) → ∀ l ∈ s.held t, l ∉ critical

end SpinState

namespace SpinMachine

variable [DecidableEq L] (M : SpinMachine σ L C A K E)

/-- The outcome of a test. -/
def outcome (s : SpinState σ L C A) (t : ℕ) (c : C) (b : Bool) : Bool := (M.test s.data t c).getD b

/-- A thread runs its next command. -/
def run (s : SpinState σ L C A) (t : ℕ) (b : Bool) (rest : List (Cmd L C A)) :
    Cmd L C A → Option (SpinState σ L C A)
  | .skip => some (s.goto t rest)
  | .lock l =>
    if s.owner l = none then
      some { s.goto t rest with owner := Function.update s.owner l (some t) }
    else none
  | .unlock l => some { s.goto t rest with owner := Function.update s.owner l none }
  | .sleep => some (s.goto t rest)
  | .act a => some { s.goto t rest with data := M.act s.data t a }
  | .panic => none
  | .seq p q => some (s.goto t (p :: q :: rest))
  | .ite c p q => some (s.goto t ((if M.outcome s t c b then p else q) :: rest))
  | .loop c p => some (s.goto t (if M.outcome s t c b then p :: .loop c p :: rest else rest))

def step (s : SpinState σ L C A) : SpinStep K E → Option (SpinState σ L C A)
  | .call t k => if (s.code t).isEmpty then some (s.goto t [M.body k]) else none
  | .turn t b =>
    match s.code t with
    | [] => none
    | p :: rest => M.run s t b rest p
  | .other e => some { s with data := M.other s.data e }

def system (init : σ → Prop) : System (SpinState σ L C A) (SpinStep K E) where
  init s := init s.data ∧ (∀ l, s.owner l = none) ∧ ∀ t, s.code t = []
  step := M.step

/-- Only calls that may be made, and only outcomes that tests may have. -/
def Ok (callable : K → Prop) (allowed : Set L → C → Bool → Prop) (s : SpinState σ L C A) :
    SpinStep K E → Prop
  | .call _ k => callable k
  | .turn t b => ∀ c ∈ Cmd.asks (s.code t), allowed (s.held t) c (M.outcome s t c b)
  | .other _ => True

instance (callable : K → Prop) [DecidablePred callable] (allowed : Set L → C → Bool → Prop)
    [∀ (s : SpinState σ L C A) t c b, Decidable (allowed (s.held t) c b)] (s : SpinState σ L C A)
    (l : SpinStep K E) : Decidable (M.Ok callable allowed s l) :=
  match l with
  | .call _ k => inferInstanceAs (Decidable (callable k))
  | .turn t b =>
    inferInstanceAs (Decidable (∀ c ∈ Cmd.asks (s.code t), allowed (s.held t) c (M.outcome s t c b)))
  | .other _ => .isTrue trivial

end SpinMachine

/-! ### Soundness of the rules -/

namespace SpinState

variable {s : SpinState σ L C A} {t u : ℕ} {l : L} {code : List (Cmd L C A)}

@[simp] theorem goto_owner : (s.goto t code).owner = s.owner := rfl

@[simp] theorem goto_data : (s.goto t code).data = s.data := rfl

@[simp] theorem goto_code_self : (s.goto t code).code t = code := Function.update_self _ _ _

theorem goto_code_of_ne (h : u ≠ t) : (s.goto t code).code u = s.code u :=
  Function.update_of_ne h _ _

@[simp] theorem held_goto : (s.goto t code).held u = s.held u := rfl

variable [DecidableEq L]

theorem held_lock (hfree : s.owner l = none) : { s.goto t code with
    owner := Function.update s.owner l (some t) }.held u =
      if u = t then insert l (s.held u) else s.held u := by
  ext k
  by_cases hk : k = l
  · subst hk
    by_cases hu : u = t
    · simp [held, hu]
    · simp [held, hu, hfree, Ne.symm hu]
  · by_cases hu : u = t <;> simp [held, hu, hk]

theorem held_unlock (hmem : l ∈ s.held t) : { s.goto t code with
    owner := Function.update s.owner l none }.held u =
      if u = t then s.held u \ {l} else s.held u := by
  have howner : s.owner l = some t := hmem
  ext k
  by_cases hk : k = l
  · subst hk
    by_cases hu : u = t
    · simp [held, hu]
    · simp [held, hu, howner, Ne.symm hu]
  · by_cases hu : u = t <;> simp [held, hu, hk]

end SpinState

namespace SpinMachine

open Cmd

variable {M : SpinMachine σ L C A K E} {critical : Set L}
  {allowed : Set L → C → Bool → Prop} {callable : K → Prop} {s s' : SpinState σ L C A}

/-- Every thread keeps to the rules. -/
def Disciplined (critical : Set L) (allowed : Set L → C → Bool → Prop) (s : SpinState σ L C A) :
    Prop :=
  ∀ t, RunsAll critical allowed (s.held t) (s.code t)

theorem Disciplined.awake (h : Disciplined critical allowed s) : s.Awake critical := by
  intro t hsleeps
  have hruns := h t
  revert hsleeps hruns
  cases s.code t with
  | nil => exact fun hsleeps => by cases hsleeps
  | cons p rest =>
    cases p with
    | sleep =>
      rintro - ⟨H', hruns, -⟩
      cases hruns with
      | sleep hlocks => exact hlocks
    | _ => exact fun hsleeps => by cases hsleeps

/-- The other threads go on with their locks. -/
theorem Disciplined.other (h : Disciplined critical allowed s) {t : ℕ}
    (hheld : ∀ u, u ≠ t → s'.held u = s.held u) (hcode : ∀ u, u ≠ t → s'.code u = s.code u)
    (hself : RunsAll critical allowed (s'.held t) (s'.code t)) :
    Disciplined critical allowed s' := by
  intro u
  by_cases hu : u = t
  · subst hu
    exact hself
  · rw [hheld u hu, hcode u hu]
    exact h u

variable [DecidableEq L]

/-- One command. -/
theorem Disciplined.run (h : Disciplined critical allowed s) {t : ℕ} {b : Bool} {p : Cmd L C A}
    {rest : List (Cmd L C A)} (hcode : s.code t = p :: rest)
    (hok : ∀ c ∈ asks (p :: rest), allowed (s.held t) c (M.outcome s t c b))
    (hs : M.run s t b rest p = some s') : Disciplined critical allowed s' := by
  obtain ⟨H', hp, hrest⟩ : ∃ H', Runs critical allowed (s.held t) p H' ∧
      RunsAll critical allowed H' rest := by
    have hself := h t
    rw [hcode] at hself
    exact hself
  -- what is left of the call after a command that does not touch the locks
  have hgoto : ∀ {code}, RunsAll critical allowed (s.held t) code →
      Disciplined critical allowed (s.goto t code) := by
    intro code hruns
    refine h.other (fun _ _ => rfl) (fun u hu => SpinState.goto_code_of_ne hu) ?_
    rw [SpinState.goto_code_self]
    exact hruns
  cases hp with
  | skip =>
    cases hs
    exact hgoto hrest
  | @lock _ l =>
    simp only [SpinMachine.run] at hs
    split at hs
    · rename_i hfree
      cases hs
      refine h.other (t := t) (fun u hu => ?_) (fun u hu => SpinState.goto_code_of_ne hu) ?_
      · rw [SpinState.held_lock hfree, if_neg hu]
      · rw [SpinState.held_lock hfree, if_pos rfl]
        show RunsAll _ _ _ ((s.goto t rest).code t)
        rw [SpinState.goto_code_self]
        exact hrest
    · cases hs
  | @unlock _ l hmem =>
    cases hs
    refine h.other (t := t) (fun u hu => ?_) (fun u hu => SpinState.goto_code_of_ne hu) ?_
    · rw [SpinState.held_unlock hmem, if_neg hu]
    · rw [SpinState.held_unlock hmem, if_pos rfl]
      show RunsAll _ _ _ ((s.goto t rest).code t)
      rw [SpinState.goto_code_self]
      exact hrest
  | sleep =>
    cases hs
    exact hgoto hrest
  | act a =>
    cases hs
    exact hgoto hrest
  | panic => cases hs
  | seq hp hq =>
    cases hs
    exact hgoto ⟨_, hp, _, hq, hrest⟩
  | @ite _ _ c p q hp hq =>
    cases hs
    have hc := hok c rfl
    refine hgoto ⟨H', ?_, hrest⟩
    cases hb : M.outcome s t c b with
    | true => exact hp (hb ▸ hc)
    | false => exact hq (hb ▸ hc)
  | @loop _ c p hp =>
    cases hs
    have hc := hok c rfl
    cases hb : M.outcome s t c b with
    | true => exact hgoto ⟨_, hp (hb ▸ hc), _, .loop hp, hrest⟩
    | false => exact hgoto hrest

/-- **Soundness.**  When the program of every call that may be made meets the rules, no thread
is ever at a point of sleep with a critical lock. -/
theorem awake_of_reachable {init : σ → Prop}
    (hbody : ∀ k, callable k → Runs critical allowed ∅ (M.body k) ∅)
    (h : (M.system init).Reachable (M.Ok callable allowed) s) : s.Awake critical := by
  suffices hdis : Disciplined critical allowed s from hdis.awake
  refine h.induction (I := Disciplined critical allowed) (fun s₀ h₀ t => ?_)
    fun u l u' hdis hok hs => ?_
  · obtain ⟨-, howner, hcode⟩ := h₀
    rw [hcode t]
    show s₀.held t = ∅
    ext l
    simp [SpinState.held, howner l]
  · cases l with
    | call t k =>
      simp only [SpinMachine.system, SpinMachine.step] at hs
      split at hs
      · rename_i hempty
        cases hs
        -- between two calls a thread holds nothing
        have hnone : u.held t = ∅ := by
          have hself := hdis t
          rw [List.isEmpty_iff.mp hempty] at hself
          exact hself
        refine hdis.other (t := t) (fun _ _ => rfl) (fun v hv => SpinState.goto_code_of_ne hv) ?_
        rw [SpinState.goto_code_self, SpinState.held_goto, hnone]
        exact ⟨∅, hbody k hok, rfl⟩
      · cases hs
    | turn t b =>
      simp only [SpinMachine.system, SpinMachine.step] at hs
      split at hs
      · cases hs
      · rename_i p rest hcode
        exact hdis.run hcode (by rw [← hcode]; exact hok) hs
    | other e =>
      cases hs
      exact hdis

end SpinMachine

end OsLab
