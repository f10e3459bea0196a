/-
The first index that passes a test, as a loop over an array finds it, and sets that take
the elements of a list from the first on.
-/
import Mathlib.Data.Finset.Card
import Mathlib.Data.Nat.Notation
import Mathlib.Tactic.Common

namespace OsLab

/-- The first of the `n` indices from `i` on that passes the test. -/
def firstFrom (test : ℕ → Bool) : ℕ → ℕ → Option ℕ
  | 0, _ => none
  | n + 1, i => if test i then some i else firstFrom test n (i + 1)

/-- `for (i = 0; i < n; i++) if (test(i)) return i;` -/
def firstIndex (test : ℕ → Bool) (n : ℕ) : Option ℕ := firstFrom test n 0

variable {test : ℕ → Bool} {n i j : ℕ}

theorem firstFrom_eq_some (h : firstFrom test n i = some j) :
    i ≤ j ∧ j < i + n ∧ test j = true ∧ ∀ k, i ≤ k → k < j → test k = false := by
  induction n generalizing i with
  | zero => cases h
  | succ n ih =>
    rw [firstFrom] at h
    split at h
    · rename_i hi
      obtain rfl := Option.some.inj h
      exact ⟨Nat.le_refl _, by omega, hi, fun k hk hlt => by omega⟩
    · rename_i hi
      obtain ⟨hle, hlt, hj, hbefore⟩ := ih h
      refine ⟨by omega, by omega, hj, fun k hk hkj => ?_⟩
      by_cases hki : k = i
      · rw [hki]
        exact Bool.eq_false_iff.mpr hi
      · exact hbefore k (by omega) hkj

theorem firstFrom_eq_none (h : firstFrom test n i = none) (hj : i ≤ j) (hlt : j < i + n) :
    test j = false := by
  induction n generalizing i with
  | zero => omega
  | succ n ih =>
    rw [firstFrom] at h
    split at h
    · cases h
    · rename_i hi
      by_cases hji : j = i
      · rw [hji]
        exact Bool.eq_false_iff.mpr hi
      · exact ih h (by omega) (by omega)

theorem firstIndex_eq_some (h : firstIndex test n = some i) :
    i < n ∧ test i = true ∧ ∀ j < i, test j = false := by
  obtain ⟨-, hlt, hi, hbefore⟩ := firstFrom_eq_some h
  exact ⟨by omega, hi, fun j hj => hbefore j (Nat.zero_le _) hj⟩

theorem firstIndex_eq_none (h : firstIndex test n = none) (hi : i < n) : test i = false :=
  firstFrom_eq_none h (Nat.zero_le _) (by omega)

/-- The index is found when the test fails for all before it. -/
theorem firstIndex_eq (hi : i < n) (ht : test i = true) (hbefore : ∀ j < i, test j = false) :
    firstIndex test n = some i := by
  cases h : firstIndex test n with
  | none =>
    rw [firstIndex_eq_none h hi] at ht
    cases ht
  | some j =>
    obtain ⟨-, hj, hjbefore⟩ := firstIndex_eq_some h
    rcases Nat.lt_trichotomy i j with hij | hij | hij
    · rw [hjbefore i hij] at ht
      cases ht
    · rw [hij]
    · rw [hbefore j hij] at hj
      cases hj

/-- A set that takes the elements of an increasing list in order is a prefix of the list. -/
theorem eq_toFinset_take {l : List ℕ} (hl : l.Pairwise (· < ·)) {a : Finset ℕ}
    (hsub : ∀ n ∈ a, n ∈ l) (hdown : ∀ n ∈ a, ∀ m ∈ l, m < n → m ∈ a) :
    a = (l.take a.card).toFinset := by
  induction l generalizing a with
  | nil =>
    obtain rfl : a = ∅ := Finset.eq_empty_of_forall_notMem fun n hn =>
      absurd (hsub n hn) List.not_mem_nil
    rfl
  | cons x l ih =>
    obtain ⟨hx, hl⟩ := List.pairwise_cons.mp hl
    have htail : ∀ n ∈ a, n ≠ x → n ∈ l := fun n hn hne =>
      (List.mem_cons.mp (hsub n hn)).resolve_left hne
    by_cases hmem : x ∈ a
    · have hrest := ih hl (a := a.erase x)
        (fun n hn => htail n (Finset.mem_of_mem_erase hn) (Finset.ne_of_mem_erase hn))
        fun n hn m hm hlt => Finset.mem_erase.mpr ⟨Nat.ne_of_gt (hx m hm),
          hdown n (Finset.mem_of_mem_erase hn) m (List.mem_cons_of_mem x hm) hlt⟩
      rw [← Finset.card_erase_add_one hmem, List.take_succ_cons, List.toFinset_cons, ← hrest,
        Finset.insert_erase hmem]
    · -- nothing is taken before `x`
      obtain rfl : a = ∅ := by
        refine Finset.eq_empty_of_forall_notMem fun n hn => hmem ?_
        have hne : n ≠ x := by
          rintro rfl
          exact hmem hn
        exact hdown n hn x List.mem_cons_self (hx n (htail n hn hne))
      rfl

end OsLab
