/-
Lists threaded through memory.

A cell holds the address of the next one, and the last holds 0.  `Chain next a l` says
that the cells from `a` on are those of `l`.

* `Chain.congr` — a store outside the list does not matter;
* `Chain.push`, `Chain.pop` — the two operations of a stack;
* `Chain.unique`, `Chain.nodup` — the words determine the list, which has every cell once;
* `OnChain`, `Chain.mem_iff` — the cells that a walk comes to.
-/
import Mathlib.Logic.Function.Basic
import Mathlib.Data.List.Nodup
import Mathlib.Tactic.Common

namespace OsLab

variable {A : Type*} [Zero A]

/-- The cells from `a` on. -/
def Chain (next : A → A) : A → List A → Prop
  | a, [] => a = 0
  | a, p :: l => a = p ∧ p ≠ 0 ∧ Chain next (next p) l

namespace Chain

variable {next next' : A → A} {a p : A} {l : List A}

theorem congr (hsame : ∀ p ∈ l, next' p = next p) (h : Chain next a l) : Chain next' a l := by
  induction l generalizing a with
  | nil => exact h
  | cons p l ih =>
    obtain ⟨rfl, hne, hrest⟩ := h
    refine ⟨rfl, hne, ?_⟩
    rw [hsame a List.mem_cons_self]
    exact ih (fun q hq => hsame q (List.mem_cons_of_mem a hq)) hrest

theorem update [DecidableEq A] {v : A} (hp : p ∉ l) (h : Chain next a l) :
    Chain (Function.update next p v) a l := by
  refine h.congr fun q hq => Function.update_of_ne ?_ _ _
  rintro rfl
  exact hp hq

/-- A new first cell. -/
theorem push [DecidableEq A] (h : Chain next a l) (hne : p ≠ 0) (hp : p ∉ l) :
    Chain (Function.update next p a) p (p :: l) := by
  refine ⟨rfl, hne, ?_⟩
  rw [Function.update_self]
  exact h.update hp

/-- The list without its first cell. -/
theorem pop (h : Chain next a l) (ha : a ≠ 0) : ∃ l', l = a :: l' ∧ Chain next (next a) l' := by
  cases l with
  | nil => exact (ha h).elim
  | cons p l =>
    obtain ⟨rfl, -, hrest⟩ := h
    exact ⟨l, rfl, hrest⟩

/-- The cells are determined by the words. -/
theorem unique {l' : List A} (h : Chain next a l) (h' : Chain next a l') : l = l' := by
  induction l generalizing a l' with
  | nil =>
    cases l' with
    | nil => rfl
    | cons q l' => exact (h'.2.1 (h'.1.symm.trans h)).elim
  | cons p l ih =>
    obtain ⟨rfl, hne, hrest⟩ := h
    cases l' with
    | nil => exact (hne h').elim
    | cons q l' =>
      obtain ⟨rfl, -, hrest'⟩ := h'
      rw [ih hrest hrest']

/-- The cells from one of the list on. -/
theorem suffix {l' : List A} (h : Chain next a (l ++ p :: l')) : Chain next p (p :: l') := by
  induction l generalizing a with
  | nil =>
    obtain ⟨rfl, hrest⟩ := h
    exact ⟨rfl, hrest⟩
  | cons q l ih => exact ih h.2.2

/-- A list that comes back to one of its cells has no end. -/
theorem nodup (h : Chain next a l) : l.Nodup := by
  induction l generalizing a with
  | nil => exact List.nodup_nil
  | cons p l ih =>
    refine List.nodup_cons.mpr ⟨fun hp => ?_, ih h.2.2⟩
    obtain ⟨l₁, l₂, rfl⟩ := List.append_of_mem hp
    have hback : Chain next p (p :: l₂) := h.2.2.suffix
    have hfront : Chain next p (p :: (l₁ ++ p :: l₂)) := ⟨rfl, h.2⟩
    have hlength := congrArg List.length (hback.unique hfront)
    simp only [List.length_cons, List.length_append] at hlength
    omega

theorem ne_zero (h : Chain next a l) (hp : p ∈ l) : p ≠ 0 := by
  obtain ⟨l₁, l₂, rfl⟩ := List.append_of_mem hp
  exact h.suffix.2.1

theorem eq_nil (h : Chain next 0 l) : l = [] := by
  cases l with
  | nil => rfl
  | cons p l =>
    obtain ⟨rfl, hne, -⟩ := h
    exact (hne rfl).elim

end Chain

/-- A walk from `a` on comes to the cell. -/
inductive OnChain (next : A → A) : A → A → Prop
  | here {p : A} (hp : p ≠ 0) : OnChain next p p
  | there {a p : A} (ha : a ≠ 0) (h : OnChain next (next a) p) : OnChain next a p

theorem Chain.mem_iff {next : A → A} {a p : A} {l : List A} (h : Chain next a l) :
    p ∈ l ↔ OnChain next a p := by
  constructor
  · intro hp
    induction l generalizing a with
    | nil => exact absurd hp List.not_mem_nil
    | cons q l ih =>
      obtain ⟨rfl, hne, hrest⟩ := h
      rcases List.mem_cons.mp hp with rfl | hp
      · exact .here hne
      · exact .there hne (ih hrest hp)
  · intro hp
    induction hp generalizing l with
    | here hne =>
      obtain ⟨l', rfl, -⟩ := h.pop hne
      exact List.mem_cons_self
    | there hne _ ih =>
      obtain ⟨l', rfl, hrest⟩ := h.pop hne
      exact List.mem_cons_of_mem _ (ih hrest)

end OsLab
