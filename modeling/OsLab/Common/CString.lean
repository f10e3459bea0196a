/-
The string functions of `common/string.c` that directories use.

A `const char *` is the function from the offset to the byte.  `cstr s n` is the
string at `s` when at most `n` bytes of it count.

* `strncmp_eq_zero` — `strncmp` returns 0 for equal strings only;
* `upToNul_strncpy` — the copy that `strncpy` makes is the same string.
-/
import Mathlib.Data.Int.Notation
import Mathlib.Data.List.Basic
import Mathlib.Tactic.Common

namespace OsLab

/-- The loop of `strncmp` from `i` on, with `n` bytes to go. -/
def strncmpFrom (s1 s2 : ℕ → UInt8) : ℕ → ℕ → ℤ
  | 0, _ => 0
  | n + 1, i =>
    if s1 i ≠ s2 i then (s1 i).toNat - (s2 i).toNat
    else if s1 i = 0 ∨ s2 i = 0 then 0
    else strncmpFrom s1 s2 n (i + 1)

/-- `strncmp`; `char` is unsigned. -/
def strncmp (s1 s2 : ℕ → UInt8) (n : ℕ) : ℤ := strncmpFrom s1 s2 n 0

/-- The two loops of `strncpy` from `i` on, with `n` bytes to go: the bytes written to
`dest`. -/
def strncpyFrom (src : ℕ → UInt8) : ℕ → ℕ → List UInt8
  | 0, _ => []
  | n + 1, i => if src i ≠ 0 then src i :: strncpyFrom src n (i + 1) else List.replicate (n + 1) 0

/-- `strncpy`: the `n` bytes written to `dest`. -/
def strncpy (src : ℕ → UInt8) (n : ℕ) : List UInt8 := strncpyFrom src n 0

/-- The string in `l`, up to the first NUL. -/
def upToNul (l : List UInt8) : List UInt8 := l.takeWhile (· ≠ 0)

/-- The first `n` bytes of the string at `s`. -/
def cstr (s : ℕ → UInt8) (n : ℕ) : List UInt8 := upToNul ((List.range n).map s)

variable {s1 s2 src : ℕ → UInt8} {n i : ℕ} {b : UInt8} {l : List UInt8}

theorem upToNul_cons_zero : upToNul (0 :: l) = [] := rfl

theorem upToNul_cons (hb : b ≠ 0) : upToNul (b :: l) = b :: upToNul l :=
  List.takeWhile_cons_of_pos (by simpa using hb)

theorem upToNul_replicate (n : ℕ) : upToNul (List.replicate n 0) = [] := by
  cases n <;> rfl

/-- **`strncmp`** returns 0 for equal strings only. -/
theorem strncmp_eq_zero :
    strncmp s1 s2 n = 0 ↔ cstr s1 n = cstr s2 n := by
  have hfrom : ∀ n i, strncmpFrom s1 s2 n i = 0 ↔
      upToNul ((List.range' i n).map s1) = upToNul ((List.range' i n).map s2) := by
    intro n
    induction n with
    | zero =>
      intro i
      simp [strncmpFrom]
    | succ n ih =>
      intro i
      rw [strncmpFrom, List.range'_succ, List.map_cons, List.map_cons]
      by_cases hne : s1 i = s2 i
      · rw [if_neg (not_not.mpr hne), ← hne]
        by_cases h0 : s1 i = 0
        · simp [h0, upToNul_cons_zero]
        · rw [if_neg (by simpa using h0), upToNul_cons h0, upToNul_cons h0, ih, List.cons.injEq]
          simp
      · -- different bytes: at most one of them is NUL
        have hval : (s1 i).toNat ≠ (s2 i).toNat := fun h => hne (UInt8.toNat_inj.mp h)
        rw [if_pos hne]
        refine iff_of_false (by omega) fun h => ?_
        by_cases h1 : s1 i = 0
        · rw [h1, upToNul_cons_zero, upToNul_cons fun h2 => hne (h1.trans h2.symm)] at h
          cases h
        · by_cases h2 : s2 i = 0
          · rw [h2, upToNul_cons_zero, upToNul_cons h1] at h
            cases h
          · rw [upToNul_cons h1, upToNul_cons h2] at h
            exact hne (List.cons.inj h).1
  rw [strncmp, hfrom, cstr, cstr, List.range_eq_range']

theorem length_strncpy : (strncpy src n).length = n := by
  have hfrom : ∀ n i, (strncpyFrom src n i).length = n := by
    intro n
    induction n with
    | zero => exact fun _ => rfl
    | succ n ih =>
      intro i
      rw [strncpyFrom]
      split
      · rw [List.length_cons, ih]
      · rw [List.length_replicate]
  exact hfrom n 0

/-- **`strncpy`** makes a copy of the string. -/
theorem upToNul_strncpy : upToNul (strncpy src n) = cstr src n := by
  have hfrom : ∀ n i, upToNul (strncpyFrom src n i) = upToNul ((List.range' i n).map src) := by
    intro n
    induction n with
    | zero => exact fun _ => rfl
    | succ n ih =>
      intro i
      rw [strncpyFrom, List.range'_succ, List.map_cons]
      by_cases h0 : src i = 0
      · rw [if_neg (not_not.mpr h0), h0, upToNul_cons_zero, upToNul_replicate]
      · rw [if_pos h0, upToNul_cons h0, upToNul_cons h0, ih]
  rw [strncpy, hfrom, cstr, List.range_eq_range']

end OsLab
