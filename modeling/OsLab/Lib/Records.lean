/-
Lists of records of one size.

`es.flatMap f` is the records `es` one after the other, when `f` writes each of them
in `w` bytes.

* `take_drop_flatMap` — record `i` is read at `i * w`;
* `overwrite_flatMap`, `overwrite_length` — a write at `i * w` replaces record `i`, and
  a write at the end adds one.
-/
import OsLab.Lib.Overwrite

namespace OsLab

variable {α β : Type*} {f : α → List β} {w i : ℕ} {es : List α} {e : α}

theorem length_flatMap_of_length (hw : ∀ a, (f a).length = w) (es : List α) :
    (es.flatMap f).length = es.length * w := by
  induction es with
  | nil => simp
  | cons a es ih =>
    rw [List.flatMap_cons, List.length_append, hw, ih, List.length_cons, Nat.succ_mul, Nat.add_comm]

theorem take_drop_flatMap (hw : ∀ a, (f a).length = w) (h : es[i]? = some e) :
    ((es.flatMap f).drop (i * w)).take w = f e := by
  induction es generalizing i with
  | nil => simp at h
  | cons a es ih =>
    cases i with
    | zero =>
      obtain rfl : a = e := by simpa using h
      rw [Nat.zero_mul, List.drop_zero, List.flatMap_cons, ← hw a, List.take_left]
    | succ i =>
      have hadd : (i + 1) * w = (f a).length + i * w := by rw [hw, Nat.succ_mul, Nat.add_comm]
      rw [List.flatMap_cons, hadd, List.drop_length_add_append]
      exact ih (by simpa using h)

theorem overwrite_append_left (l₁ l₂ s : List β) (n : ℕ) :
    overwrite (l₁ ++ l₂) (l₁.length + n) s = l₁ ++ overwrite l₂ n s := by
  simp only [overwrite, Nat.add_assoc, List.take_length_add_append, List.drop_length_add_append,
    List.append_assoc]

theorem overwrite_flatMap (hw : ∀ a, (f a).length = w) (hi : i < es.length) :
    overwrite (es.flatMap f) (i * w) (f e) = (es.set i e).flatMap f := by
  induction es generalizing i with
  | nil => simp at hi
  | cons a es ih =>
    cases i with
    | zero =>
      have hlen : (f e).length = (f a).length := by rw [hw, hw]
      rw [List.set_cons_zero, List.flatMap_cons, List.flatMap_cons, Nat.zero_mul, overwrite,
        List.take_zero, List.nil_append, Nat.zero_add, hlen, List.drop_left]
    | succ i =>
      have hadd : (i + 1) * w = (f a).length + i * w := by rw [hw, Nat.succ_mul, Nat.add_comm]
      rw [List.set_cons_succ, List.flatMap_cons, List.flatMap_cons, hadd, overwrite_append_left,
        ih (by simpa using hi)]

theorem overwrite_length (l s : List β) : overwrite l l.length s = l ++ s := by
  simp [overwrite]

end OsLab
