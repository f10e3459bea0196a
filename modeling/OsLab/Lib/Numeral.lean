/-
Numerals: lists of digits in a base, the first one the most significant.

* `IsNumeral` — the digits are below the base, and zero is in front only in the numeral of zero;
* `numeral` — the numeral of a number (`isNumeral_numeral`), of which the last digit is the
  remainder (`numeral_div`);
* `value_numeral`, `IsNumeral.eq_numeral` — a number has this numeral and no other;
* `length_numeral_le` — how many digits there are.
-/
import Mathlib.Data.Nat.Digits.Lemmas

namespace OsLab

/-- The numeral of `n` in base `b`. -/
def numeral (b n : ℕ) : List ℕ := if n = 0 then [0] else (b.digits n).reverse

/-- The number that a list of digits stands for. -/
def numeralValue (b : ℕ) (ds : List ℕ) : ℕ := ds.foldl (fun n d => n * b + d) 0

/-- A list of digits without needless zeros in front. -/
structure IsNumeral (b : ℕ) (ds : List ℕ) : Prop where
  ne_nil : ds ≠ []
  lt_base : ∀ d ∈ ds, d < b
  leading : ds.head? = some 0 → ds = [0]

variable {b n k : ℕ} {ds : List ℕ}

theorem numeralValue_eq (b : ℕ) (ds : List ℕ) : numeralValue b ds = Nat.ofDigits b ds.reverse := by
  rw [Nat.ofDigits_eq_foldr, List.foldr_reverse, numeralValue]
  congr 1
  funext n d
  rw [Nat.cast_id, Nat.mul_comm, Nat.add_comm]

theorem value_numeral (b n : ℕ) : numeralValue b (numeral b n) = n := by
  rw [numeralValue_eq, numeral]
  split
  · rename_i hn
    rw [hn]
    exact Nat.ofDigits_singleton
  · rw [List.reverse_reverse, Nat.ofDigits_digits]

theorem numeral_ne_nil (b n : ℕ) : numeral b n ≠ [] := by
  rw [numeral]
  split
  · exact List.cons_ne_nil 0 []
  · rename_i hn
    exact List.reverse_ne_nil_iff.mpr (Nat.digits_ne_nil_iff_ne_zero.mpr hn)

theorem numeral_of_lt (hn : n < b) : numeral b n = [n] := by
  rw [numeral]
  split
  · rename_i h
    rw [h]
  · rename_i h
    rw [Nat.digits_of_lt b n h hn]
    rfl

/-- The last digit is the remainder, and the others are the numeral of the quotient. -/
theorem numeral_div (hb : 1 < b) (hn : b ≤ n) : numeral b n = numeral b (n / b) ++ [n % b] := by
  have hn0 : n ≠ 0 := by omega
  have hq0 : n / b ≠ 0 := (Nat.div_pos hn (by omega)).ne'
  rw [numeral, if_neg hn0, numeral, if_neg hq0, Nat.digits_eq_cons_digits_div hb hn0,
    List.reverse_cons]

theorem isNumeral_numeral (hb : 1 < b) (n : ℕ) : IsNumeral b (numeral b n) := by
  constructor
  case ne_nil => exact numeral_ne_nil b n
  case lt_base =>
    intro d hd
    rw [numeral] at hd
    split at hd
    · rw [List.mem_singleton.mp hd]
      omega
    · exact Nat.digits_lt_base hb (List.mem_reverse.mp hd)
  case leading =>
    intro hhead
    rw [numeral] at hhead ⊢
    split
    · rfl
    · -- the first digit of another number is not zero
      rename_i hn
      have hne : b.digits n ≠ [] := Nat.digits_ne_nil_iff_ne_zero.mpr hn
      rw [if_neg hn, List.head?_reverse, List.getLast?_eq_some_getLast hne] at hhead
      exact absurd (Option.some.inj hhead) (Nat.getLast_digit_ne_zero b hn)

/-- A number has one numeral. -/
theorem IsNumeral.eq_numeral (hb : 1 < b) (h : IsNumeral b ds) :
    ds = numeral b (numeralValue b ds) := by
  rw [numeralValue_eq]
  by_cases hzero : ds.head? = some 0
  · rw [h.leading hzero]
    rfl
  · have hlast : ∀ hne : ds.reverse ≠ [], ds.reverse.getLast hne ≠ 0 := by
      intro hne heq
      rw [List.getLast_reverse] at heq
      exact hzero (heq ▸ List.head?_eq_some_head h.ne_nil)
    have hdigits := Nat.digits_ofDigits b hb ds.reverse
      (fun d hd => h.lt_base d (List.mem_reverse.mp hd)) hlast
    have hpos : Nat.ofDigits b ds.reverse ≠ 0 := by
      intro heq
      rw [heq, Nat.digits_zero] at hdigits
      exact h.ne_nil (List.reverse_eq_nil_iff.mp hdigits.symm)
    rw [numeral, if_neg hpos, hdigits, List.reverse_reverse]

theorem length_numeral_le (hb : 1 < b) (hk : 0 < k) (hn : n < b ^ k) :
    (numeral b n).length ≤ k := by
  rw [numeral]
  split
  · exact hk
  · rw [List.length_reverse]
    exact (Nat.digits_length_le_iff hb n).mpr hn

end OsLab
