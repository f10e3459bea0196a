/-
Labelled transition systems and what holds along their runs.

A `System` has initial states and a deterministic labelled step (every choice
of an interleaving is in the label).  A run may be restricted by a condition
`ok` on the state *before* a step and the label of that step:

* `System.Reachable` — the states of all runs whose steps meet `ok`;
* `System.Reachable.induction` — what holds initially and is kept by one step
  holds in every reachable state;
* `System.Leads` — the later states of a run, for properties of the form
  "at any later point";
* `System.exec` — a run executed on a list of labels, for concrete runs.
-/
import Mathlib.Logic.Relation
import Mathlib.Tactic.Common

namespace OsLab

/-- A transition system with labelled, deterministic steps; `step s l = none`
means that `l` cannot be taken in `s`. -/
structure System (σ ι : Type*) where
  init : σ → Prop
  step : σ → ι → Option σ

namespace System

variable {σ ι : Type*} (M : System σ ι) (ok : σ → ι → Prop)

/-- One step of a run whose steps meet `ok`. -/
def Next (s s' : σ) : Prop := ∃ l, ok s l ∧ M.step s l = some s'

/-- `s'` is `s` or a later state of a run from `s` whose steps meet `ok`. -/
def Leads : σ → σ → Prop := Relation.ReflTransGen (M.Next ok)

/-- The states reached by the runs whose steps meet `ok`. -/
def Reachable (s : σ) : Prop := ∃ s₀, M.init s₀ ∧ M.Leads ok s₀ s

variable {M ok}

theorem Leads.refl (s : σ) : M.Leads ok s s := Relation.ReflTransGen.refl

theorem Leads.tail {s t u : σ} (h : M.Leads ok s t) {l : ι} (hl : ok t l)
    (hs : M.step t l = some u) : M.Leads ok s u :=
  Relation.ReflTransGen.tail h ⟨l, hl, hs⟩

theorem Leads.trans {s t u : σ} (h : M.Leads ok s t) (h' : M.Leads ok t u) :
    M.Leads ok s u := Relation.ReflTransGen.trans h h'

theorem Reachable.of_init {s : σ} (h : M.init s) : M.Reachable ok s := ⟨s, h, .refl s⟩

theorem Reachable.leads {s t : σ} (h : M.Reachable ok s) (h' : M.Leads ok s t) :
    M.Reachable ok t := by
  obtain ⟨s₀, h₀, hs⟩ := h
  exact ⟨s₀, h₀, hs.trans h'⟩

theorem Reachable.step {s t : σ} (h : M.Reachable ok s) {l : ι} (hl : ok s l)
    (hs : M.step s l = some t) : M.Reachable ok t := h.leads ((Leads.refl s).tail hl hs)

/-- A property kept by every step meeting `ok` is kept along a run. -/
theorem Leads.induction {I : σ → Prop}
    (hstep : ∀ s l s', I s → ok s l → M.step s l = some s' → I s')
    {s t : σ} (h : M.Leads ok s t) (hs : I s) : I t := by
  induction h with
  | refl => exact hs
  | tail _ hnext ih =>
    obtain ⟨l, hl, hstep'⟩ := hnext
    exact hstep _ l _ ih hl hstep'

/-- **Invariants.**  What holds initially and is kept by every step meeting
`ok` holds in every state reached by steps meeting `ok`. -/
theorem Reachable.induction {I : σ → Prop} (hinit : ∀ s, M.init s → I s)
    (hstep : ∀ s l s', I s → ok s l → M.step s l = some s' → I s')
    {s : σ} (h : M.Reachable ok s) : I s := by
  obtain ⟨s₀, h₀, hs⟩ := h
  exact hs.induction hstep (hinit s₀ h₀)

/-- The step may use what is already known of the reachable states. -/
theorem Reachable.strong_induction {I : σ → Prop} (hinit : ∀ s, M.init s → I s)
    (hstep : ∀ s l s', M.Reachable ok s → I s → ok s l → M.step s l = some s' → I s')
    {s : σ} (h : M.Reachable ok s) : I s := by
  have hboth : M.Reachable ok s ∧ I s := by
    obtain ⟨s₀, h₀, hs⟩ := h
    induction hs with
    | refl => exact ⟨.of_init h₀, hinit s₀ h₀⟩
    | tail _ hnext ih =>
      obtain ⟨l, hl, hstep'⟩ := hnext
      exact ⟨ih.1.step hl hstep', hstep _ l _ ih.1 ih.2 hl hstep'⟩
  exact hboth.2

/-- A run that meets a stronger condition meets the weaker one. -/
theorem Leads.mono {ok' : σ → ι → Prop} (himp : ∀ s l, ok s l → ok' s l) {s t : σ}
    (h : M.Leads ok s t) : M.Leads ok' s t := by
  refine Relation.ReflTransGen.mono (fun u v huv => ?_) _ _ h
  obtain ⟨l, hl, hs⟩ := huv
  exact ⟨l, himp _ l hl, hs⟩

theorem Reachable.mono {ok' : σ → ι → Prop} (himp : ∀ s l, ok s l → ok' s l) {s : σ}
    (h : M.Reachable ok s) : M.Reachable ok' s := by
  obtain ⟨s₀, h₀, hs⟩ := h
  exact ⟨s₀, h₀, hs.mono himp⟩

/-- Runs the labels of a list in order; `none` when one of them cannot be taken
or does not meet `ok`. -/
def exec (M : System σ ι) (ok : σ → ι → Prop) [∀ s l, Decidable (ok s l)] : σ → List ι → Option σ
  | s, [] => some s
  | s, l :: ls => if ok s l then (M.step s l).bind fun s' => M.exec ok s' ls else none

/-- An executed list of labels is a run. -/
theorem leads_of_exec [∀ s l, Decidable (ok s l)] {ls : List ι} :
    ∀ {s t : σ}, M.exec ok s ls = some t → M.Leads ok s t := by
  induction ls with
  | nil =>
    intro s t h
    obtain rfl : s = t := by simpa [exec] using h
    exact .refl s
  | cons l ls ih =>
    intro s t h
    simp only [exec] at h
    split at h
    · rename_i hl
      obtain ⟨u, hu, ht⟩ := Option.bind_eq_some_iff.mp h
      exact ((Leads.refl s).tail hl hu).trans (ih ht)
    · cases h

end System

end OsLab
