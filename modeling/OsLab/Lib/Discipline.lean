/-
Programs that keep a discipline.

A `Discipline` says which calls a program may make next, and which answers it can count
on.  `Prog.Follows` is a static property of the program: it holds of a composition when it
holds of the parts.

* `Prog.simulates` — when the calls of one store are simulated by another as long as the
  discipline is kept, so are the programs that keep it; the simulating store may give up,
  and then the other has lost something it does not get back.
-/
import OsLab.Lib.Calls

namespace OsLab

/-- What is asked of the calls of a program, in states `S` that it determines itself. -/
structure Discipline (C : Type) (R : C → Type) (S : Type) where
  pre : S → C → Prop
  answers : S → (c : C) → R c → Prop
  post : S → C → S

namespace Prog

variable {C : Type} {R : C → Type} {S ε α β : Type}

/-- The program keeps to `D` from state `h` on, and is in a state that `Q` allows when it
returns. -/
def Follows (D : Discipline C R S) (Q : α → S → Prop) : Prog C R ε α → S → Prop
  | done a, h => Q a h
  | fail _, _ => True
  | call c k, h => D.pre h c ∧ ∀ r, D.answers h c r → (k r).Follows D Q (D.post h c)

variable {D : Discipline C R S} {Q Q' : α → S → Prop} {T : β → S → Prop} {p : Prog C R ε α}
  {f : α → Prog C R ε β} {h : S}

theorem follows_pure {a : α} (hQ : Q a h) : (pure a : Prog C R ε α).Follows D Q h := hQ

theorem follows_throw {e : ε} : (throw e : Prog C R ε α).Follows D Q h := trivial

theorem follows_ask {c : C} {Q : R c → S → Prop} (hpre : D.pre h c)
    (hQ : ∀ r, D.answers h c r → Q r (D.post h c)) :
    (ask c : Prog C R ε (R c)).Follows D Q h := ⟨hpre, hQ⟩

theorem Follows.mono (hp : p.Follows D Q h) (hQ : ∀ a e, Q a e → Q' a e) : p.Follows D Q' h := by
  induction p generalizing h with
  | done a => exact hQ a h hp
  | fail e => trivial
  | call c k ih => exact ⟨hp.1, fun r hr => ih r (hp.2 r hr)⟩

theorem Follows.bind (hp : p.Follows D Q h) (hf : ∀ a e, Q a e → (f a).Follows D T e) :
    (p >>= f).Follows D T h := by
  induction p generalizing h with
  | done a => exact hf a h hp
  | fail e => trivial
  | call c k ih => exact ⟨hp.1, fun r hr => ih r (hp.2 r hr)⟩

/-! ### Simulation -/

variable {σ τ : Type} {ask₁ : (c : C) → StateT σ (Except ε) (R c)}
  {ask₂ : (c : C) → StateT τ (Except ε) (R c)}

/-- One call of `ask₁` is made by `ask₂` as well, or `ask₂` fails with `fault` and something is
lost. -/
def SimulatesCalls (D : Discipline C R S) (Rel : S → σ → τ → Prop) (Lost : σ → Prop) (fault : ε)
    (ask₁ : (c : C) → StateT σ (Except ε) (R c)) (ask₂ : (c : C) → StateT τ (Except ε) (R c)) :
    Prop :=
  ∀ h c r s s' t, D.pre h c → Rel h s t → (ask₁ c).run s = .ok (r, s') →
    D.answers h c r ∧ ((∃ t', (ask₂ c).run t = .ok (r, t') ∧ Rel (D.post h c) s' t') ∨
      (ask₂ c).run t = .error fault ∧ Lost s')

/-- What is lost stays lost. -/
theorem lost_of_run {Lost : σ → Prop}
    (hlost : ∀ c r s s', (ask₁ c).run s = .ok (r, s') → Lost s → Lost s') {a : α} {s s' : σ}
    (hrun : (p.interp ask₁).run s = .ok (a, s')) (hs : Lost s) : Lost s' := by
  induction p generalizing s with
  | done b =>
    cases hrun
    exact hs
  | fail e => cases hrun
  | call c k ih =>
    have hcall : (ask₁ c).run s >>= (fun r => ((k r.1).interp ask₁).run r.2) = .ok (a, s') := hrun
    cases hc : (ask₁ c).run s with
    | error e =>
      rw [hc] at hcall
      cases hcall
    | ok r =>
      rw [hc] at hcall
      exact ih r.1 hcall (hlost c r.1 s r.2 hc hs)

/-- **Simulation.**  A program that keeps the discipline and returns over `ask₁` returns the
same over `ask₂`, or it fails there and something is lost. -/
theorem simulates {Rel : S → σ → τ → Prop} {Lost : σ → Prop} {fault : ε}
    (hstep : SimulatesCalls D Rel Lost fault ask₁ ask₂)
    (hlost : ∀ c r s s', (ask₁ c).run s = .ok (r, s') → Lost s → Lost s')
    {a : α} {s s' : σ} {t : τ} (hp : p.Follows D Q h) (hrel : Rel h s t)
    (hrun : (p.interp ask₁).run s = .ok (a, s')) :
    (∃ t' e, (p.interp ask₂).run t = .ok (a, t') ∧ Q a e ∧ Rel e s' t') ∨
      (p.interp ask₂).run t = .error fault ∧ Lost s' := by
  induction p generalizing h s t with
  | done b =>
    cases hrun
    exact .inl ⟨t, h, rfl, hp, hrel⟩
  | fail e => cases hrun
  | call c k ih =>
    have hcall : (ask₁ c).run s >>= (fun r => ((k r.1).interp ask₁).run r.2) = .ok (a, s') := hrun
    have hcall₂ : ((call c k).interp ask₂).run t
        = (ask₂ c).run t >>= fun r => ((k r.1).interp ask₂).run r.2 := rfl
    cases hc : (ask₁ c).run s with
    | error e =>
      rw [hc] at hcall
      cases hcall
    | ok r =>
      rw [hc] at hcall
      obtain ⟨hans, hsim⟩ := hstep h c r.1 s r.2 t hp.1 hrel hc
      rw [hcall₂]
      rcases hsim with ⟨t', ht', hrel'⟩ | ⟨hfails, hls⟩
      · rw [ht']
        exact ih r.1 (hp.2 r.1 hans) hrel' hcall
      · -- `ask₂` has given up here
        refine .inr ⟨?_, lost_of_run hlost hcall hls⟩
        rw [hfails]
        rfl

end Prog

end OsLab
