/-
Weakest preconditions for programs with a state and errors.

A program is an action of `StateT σ (Except ε)`.  `wp m Q E s` says what a run
of `m` from `s` does: it returns a value and a state that meet `Q`, or it ends
in an error that meets `E`.  With `E := fun _ => False` this is total
correctness (the program returns, and its result is right).

* `wp_bind`, `wp_pure`, `wp_throw`, `wp_modify` — one rule per constructor;
* `wp_mono` — the rule of consequence;
* `forUpTo`, `wp_forUpTo` — the counting loop and its invariant rule.
-/
import Mathlib.Tactic.Common

namespace OsLab

variable {σ ε α β : Type}

/-- `m` started in `s` returns with `Q` or fails with `E`. -/
def wp (m : StateT σ (Except ε) α) (Q : α → σ → Prop) (E : ε → Prop) (s : σ) : Prop :=
  match m.run s with
  | .ok (a, s') => Q a s'
  | .error e => E e

theorem wp_of_run {m : StateT σ (Except ε) α} {Q : α → σ → Prop} {E : ε → Prop} {s s' : σ}
    {a : α} (h : m.run s = .ok (a, s')) (hQ : Q a s') : wp m Q E s := by
  rw [wp, h]
  exact hQ

/-- What `wp` says of a run that returned. -/
theorem wp_run {m : StateT σ (Except ε) α} {Q : α → σ → Prop} {E : ε → Prop} {s s' : σ}
    {a : α} (h : wp m Q E s) (hrun : m.run s = .ok (a, s')) : Q a s' := by
  rw [wp, hrun] at h
  exact h

/-- Total correctness gives a run that returns. -/
theorem exists_run_of_wp {m : StateT σ (Except ε) α} {Q : α → σ → Prop} {s : σ}
    (h : wp m Q (fun _ => False) s) : ∃ a s', m.run s = .ok (a, s') ∧ Q a s' := by
  rw [wp] at h
  cases hrun : m.run s with
  | error e => rw [hrun] at h; exact h.elim
  | ok r => rw [hrun] at h; exact ⟨r.1, r.2, rfl, h⟩

/-- A program that can only fail in one way fails so. -/
theorem run_of_wp_error {m : StateT σ (Except ε) α} {e : ε} {s : σ}
    (h : wp m (fun _ _ => False) (fun e' => e' = e) s) : m.run s = .error e := by
  rw [wp] at h
  cases hrun : m.run s with
  | error e' =>
    rw [hrun] at h
    rw [show e' = e from h]
  | ok r =>
    rw [hrun] at h
    exact h.elim

/-- When a program fails, and how, from what it does. -/
theorem run_error_iff {m : StateT σ (Except ε) α} {Q : α → σ → Prop} {E : ε → Prop} {s : σ}
    (h : wp m Q E s) (hQ : ∀ a s', Q a s' → ∀ e, ¬ E e) (hE : ∀ e e', E e → E e' → e = e')
    (e : ε) : m.run s = .error e ↔ E e := by
  rw [wp] at h
  cases hrun : m.run s with
  | error e' =>
    rw [hrun] at h
    constructor
    · rintro ⟨⟩
      exact h
    · intro he
      rw [hE e e' he h]
  | ok r =>
    rw [hrun] at h
    exact iff_of_false (fun he => nomatch he) (hQ r.1 r.2 h e)

/-- Partial correctness: only the runs that return matter. -/
theorem wp_of_returns {m : StateT σ (Except ε) α} {Q : α → σ → Prop} {s : σ}
    (h : ∀ a s', m.run s = .ok (a, s') → Q a s') : wp m Q (fun _ => True) s := by
  rw [wp]
  cases hrun : m.run s with
  | error e => trivial
  | ok r => exact h r.1 r.2 hrun

theorem wp_mono {m : StateT σ (Except ε) α} {Q Q' : α → σ → Prop} {E E' : ε → Prop} {s : σ}
    (h : wp m Q E s) (hQ : ∀ a s', Q a s' → Q' a s') (hE : ∀ e, E e → E' e) :
    wp m Q' E' s := by
  rw [wp] at h ⊢
  cases hrun : m.run s with
  | error e => rw [hrun] at h; exact hE e h
  | ok r => rw [hrun] at h; exact hQ r.1 r.2 h

theorem wp_and {m : StateT σ (Except ε) α} {Q Q' : α → σ → Prop} {E E' : ε → Prop} {s : σ}
    (h : wp m Q E s) (h' : wp m Q' E' s) :
    wp m (fun a t => Q a t ∧ Q' a t) (fun e => E e ∧ E' e) s := by
  rw [wp] at h h' ⊢
  cases hrun : m.run s with
  | error e => rw [hrun] at h h'; exact ⟨h, h'⟩
  | ok r => rw [hrun] at h h'; exact ⟨h, h'⟩

@[simp] theorem wp_pure {a : α} {Q : α → σ → Prop} {E : ε → Prop} {s : σ} :
    wp (pure a : StateT σ (Except ε) α) Q E s ↔ Q a s := Iff.rfl

@[simp] theorem wp_throw {e : ε} {Q : α → σ → Prop} {E : ε → Prop} {s : σ} :
    wp (throw e : StateT σ (Except ε) α) Q E s ↔ E e := Iff.rfl

@[simp] theorem wp_get {Q : σ → σ → Prop} {E : ε → Prop} {s : σ} :
    wp (get : StateT σ (Except ε) σ) Q E s ↔ Q s s := Iff.rfl

@[simp] theorem wp_set {t : σ} {Q : PUnit → σ → Prop} {E : ε → Prop} {s : σ} :
    wp (set t : StateT σ (Except ε) PUnit) Q E s ↔ Q ⟨⟩ t := Iff.rfl

@[simp] theorem wp_modify {f : σ → σ} {Q : PUnit → σ → Prop} {E : ε → Prop} {s : σ} :
    wp (modify f : StateT σ (Except ε) PUnit) Q E s ↔ Q ⟨⟩ (f s) := Iff.rfl

@[simp] theorem wp_bind {m : StateT σ (Except ε) α} {f : α → StateT σ (Except ε) β}
    {Q : β → σ → Prop} {E : ε → Prop} {s : σ} :
    wp (m >>= f) Q E s ↔ wp m (fun a s' => wp (f a) Q E s') E s := by
  simp only [wp, StateT.run_bind]
  cases m.run s with
  | error e => rfl
  | ok r => rfl

/-- The loop `for (i = 0; i < n; i++) body(i)`. -/
def forUpTo {m : Type → Type*} [Monad m] : ℕ → (ℕ → m Unit) → m Unit
  | 0, _ => pure ()
  | n + 1, body => do
    forUpTo n body
    body n

/-- **Loop rule.**  `I k` holds before iteration `k`; every iteration takes
`I k` to `I (k + 1)`. -/
theorem wp_forUpTo {body : ℕ → StateT σ (Except ε) Unit} {E : ε → Prop}
    (I : ℕ → σ → Prop) {n : ℕ} {s : σ} (h0 : I 0 s)
    (hbody : ∀ k < n, ∀ t, I k t → wp (body k) (fun _ t' => I (k + 1) t') E t) :
    wp (forUpTo n body) (fun _ t => I n t) E s := by
  induction n with
  | zero => exact h0
  | succ n ih =>
    rw [forUpTo, wp_bind]
    refine wp_mono (ih fun k hk => hbody k (by omega)) (fun _ t ht => ?_) fun _ he => he
    exact hbody n (Nat.lt_succ_self n) t ht

end OsLab
