/-
Programs as trees of calls.

`Prog C R ε α` is a program that makes calls `c : C`, goes on with their answers in
`R c`, and returns a value or fails.  A program that is written for every monad becomes
such a tree, whose calls can then be made one at a time.

* `Prog.All` — every call that the program can make has a property;
* `Prog.interp` — the calls are answered by a program with a state.
-/
import Mathlib.Tactic.Common

namespace OsLab

/-- A program that calls. -/
inductive Prog (C : Type) (R : C → Type) (ε α : Type)
  | done (a : α)
  | fail (e : ε)
  | call (c : C) (k : R c → Prog C R ε α)

namespace Prog

variable {C : Type} {R : C → Type} {ε α β : Type}

/-- One call. -/
def ask (c : C) : Prog C R ε (R c) := call c done

protected def bind (p : Prog C R ε α) (f : α → Prog C R ε β) : Prog C R ε β :=
  match p with
  | done a => f a
  | fail e => fail e
  | call c k => call c fun r => (k r).bind f

/-- A failed program goes on with the handler. -/
protected def tryCatch (p : Prog C R ε α) (f : ε → Prog C R ε α) : Prog C R ε α :=
  match p with
  | done a => done a
  | fail e => f e
  | call c k => call c fun r => (k r).tryCatch f

instance : Monad (Prog C R ε) where
  pure := done
  bind := Prog.bind

instance : MonadExceptOf ε (Prog C R ε) where
  throw := fail
  tryCatch := Prog.tryCatch

/-- All calls of the program have the property, whatever the answers are. -/
def All (P : C → Prop) : Prog C R ε α → Prop
  | done _ => True
  | fail _ => True
  | call c k => P c ∧ ∀ r, (k r).All P

variable {P : C → Prop} {p : Prog C R ε α} {f : α → Prog C R ε β}

@[simp] theorem all_pure (a : α) : (pure a : Prog C R ε α).All P := trivial

@[simp] theorem all_throw (e : ε) : (throw e : Prog C R ε α).All P := trivial

@[simp] theorem all_ask {c : C} : (ask c : Prog C R ε (R c)).All P ↔ P c :=
  ⟨fun h => h.1, fun h => ⟨h, fun _ => trivial⟩⟩

theorem all_bind (hp : p.All P) (hf : ∀ a, (f a).All P) : (p >>= f).All P := by
  induction p with
  | done a => exact hf a
  | fail e => trivial
  | call c k ih => exact ⟨hp.1, fun r => ih r (hp.2 r)⟩

/-! ### Answers with a state -/

variable {σ : Type} {h : (c : C) → StateT σ (Except ε) (R c)}

/-- The program with its calls answered by `h`. -/
def interp (h : (c : C) → StateT σ (Except ε) (R c)) : Prog C R ε α → StateT σ (Except ε) α
  | done a => pure a
  | fail e => throw e
  | call c k => h c >>= fun r => (k r).interp h

@[simp] theorem interp_pure (a : α) : (pure a : Prog C R ε α).interp h = pure a := rfl

@[simp] theorem interp_throw (e : ε) : (throw e : Prog C R ε α).interp h = throw e := rfl

@[simp] theorem interp_ask (c : C) : (ask c : Prog C R ε (R c)).interp h = h c := bind_pure (h c)

@[simp] theorem interp_bind : (p >>= f).interp h = p.interp h >>= fun a => (f a).interp h := by
  induction p with
  | done a => rfl
  | fail e => rfl
  | call c k ih =>
    show (h c >>= fun r => (k r >>= f).interp h) = (h c >>= fun r => (k r).interp h) >>= _
    rw [bind_assoc]
    exact bind_congr fun r => ih r

end Prog

end OsLab
